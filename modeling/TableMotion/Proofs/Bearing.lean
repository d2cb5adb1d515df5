import TableMotion.Proofs.Standing

/-!
# How changes bear on a path

The changes between two trees of one kind are those that their children bring about, key by key
(`mem_changes_iff`). So either no change bears on a path, or one takes in the whole of it, or all
lie under a node that both trees have there (`bearing`). One change that takes in a path shows the
new node there unless it grows or shrinks a list that other changes have to work on too
(`Strays`).
-/

namespace TableMotion

/-- Whether a change lies on a path, above it or under it. -/
def Change.BearsOn (p : Path) (c : Change) : Prop := c.path.covers p = true ∨ p.covers c.path = true

namespace Tree

/-! ## Changes key by key -/

/-- A change that the child under a key brings about. -/
def KeyChange (key : String) : Option Tree → Option Tree → Change → Prop
  | some s, some u, c => ∃ d ∈ changes s u, d.under key = c
  | none, none, _ => False
  | s, u, c => c = ⟨[key], s, u⟩

theorem mem_changedFields {before after : Dictionary Tree} {c : Change} :
    c ∈ changedFields before after ↔
      ∃ e ∈ before, KeyChange e.1 (some e.2) (Dictionary.find? after e.1) c := by
  induction before with
  | nil => simp [changedFields]
  | cons e before ih =>
    obtain ⟨key, s⟩ := e
    rw [changedFields, List.mem_append, ih]
    simp only [List.mem_cons, exists_eq_or_imp]
    cases found : Dictionary.find? after key <;> simp [KeyChange]

theorem mem_addedFields {before after : Dictionary Tree} {c : Change} :
    c ∈ addedFields before after ↔
      ∃ e ∈ after, Dictionary.find? before e.1 = none ∧ c = ⟨[e.1], none, some e.2⟩ := by
  rw [addedFields, List.mem_map]
  constructor
  · rintro ⟨e, he, rfl⟩
    obtain ⟨member, absent⟩ := List.mem_filter.1 he
    exact ⟨e, member, Option.isNone_iff_eq_none.1 absent, rfl⟩
  · rintro ⟨e, he, absent, rfl⟩
    exact ⟨e, List.mem_filter.2 ⟨he, Option.isNone_iff_eq_none.2 absent⟩, rfl⟩

theorem mem_changes_map {before after : Dictionary Tree} (sortedBefore : Dictionary.Sorted before)
    (sortedAfter : Dictionary.Sorted after) {c : Change} :
    c ∈ changedFields before after ++ addedFields before after ↔
      ∃ key, KeyChange key (Dictionary.find? before key) (Dictionary.find? after key) c := by
  rw [List.mem_append, mem_changedFields, mem_addedFields]
  constructor
  · rintro (⟨e, he, made⟩ | ⟨e, he, absent, rfl⟩)
    · refine ⟨e.1, ?_⟩
      rwa [sortedBefore.find?_eq_some_iff.2 he]
    · refine ⟨e.1, ?_⟩
      rw [absent, sortedAfter.find?_eq_some_iff.2 he]
      exact rfl
  · rintro ⟨key, made⟩
    cases there : Dictionary.find? before key with
    | some s =>
      rw [there] at made
      exact Or.inl ⟨_, Dictionary.mem_of_find? there, made⟩
    | none =>
      cases thereNew : Dictionary.find? after key with
      | none =>
        rw [there, thereNew] at made
        exact made.elim
      | some u =>
        rw [there, thereNew] at made
        exact Or.inr ⟨_, Dictionary.mem_of_find? thereNew, there, made⟩

theorem mem_addedItems {n : Nat} {items : List Tree} {c : Change} :
    c ∈ addedItems n items ↔ ∃ i, KeyChange (Path.indexKey (n + i)) none items[i]? c := by
  constructor
  · intro hc
    obtain ⟨i, inside, rfl⟩ := List.mem_mapIdx.1 hc
    exact ⟨i, by rw [List.getElem?_eq_getElem inside]; rfl⟩
  · rintro ⟨i, made⟩
    cases there : items[i]? with
    | none =>
      rw [there] at made
      exact made.elim
    | some u =>
      rw [there] at made
      obtain ⟨inside, rfl⟩ := List.getElem?_eq_some_iff.1 there
      exact List.mem_mapIdx.2 ⟨i, inside, made.symm⟩

theorem keyChange_back {key : String} {s : Option Tree} {c : Change} :
    KeyChange key none s c.back ↔ KeyChange key s none c := by
  cases s with
  | none => exact Iff.rfl
  | some t =>
    obtain ⟨path, before, after⟩ := c
    simp only [KeyChange, Change.back, Change.mk.injEq]
    exact and_congr_right fun _ => and_comm

theorem mem_removedItems {n : Nat} {items : List Tree} {c : Change} :
    c ∈ removedItems n items ↔ ∃ i, KeyChange (Path.indexKey (n + i)) items[i]? none c := by
  rw [removedItems_eq, List.mem_reverse, List.mem_map]
  simp only [← keyChange_back, ← mem_addedItems]
  exact ⟨fun ⟨d, hd, same⟩ => same ▸ hd, fun hc => ⟨c.back, hc, rfl⟩⟩

theorem mem_changedItems {n : Nat} {before after : List Tree} {c : Change} :
    c ∈ changedItems n before after ↔
      ∃ i, KeyChange (Path.indexKey (n + i)) before[i]? after[i]? c := by
  induction before generalizing n after with
  | nil => exact mem_addedItems
  | cons s before ih =>
    cases after with
    | nil => exact mem_removedItems
    | cons u after =>
      rw [changedItems, List.mem_append, ih, List.mem_map]
      constructor
      · rintro (here | ⟨i, later⟩)
        · exact ⟨0, here⟩
        · refine ⟨i + 1, ?_⟩
          rwa [Nat.add_right_comm] at later
      · rintro ⟨_ | i, there⟩
        · exact Or.inl there
        · refine Or.inr ⟨i, ?_⟩
          rwa [Nat.add_right_comm]

theorem mem_changes_list {before after : List Tree} (hbefore : (Tree.list before).Regular)
    (hafter : (Tree.list after).Regular) {c : Change} :
    c ∈ changedItems 0 before after ↔
      ∃ key, KeyChange key ((Tree.list before).child? key) ((Tree.list after).child? key) c := by
  simp only [mem_changedItems, Nat.zero_add]
  constructor
  · rintro ⟨i, made⟩
    have small : i < 0x10000000000000000 := by
      by_contra large
      have past := Nat.le_of_not_lt large
      rw [getElem?_eq_none_of_regular hbefore past, getElem?_eq_none_of_regular hafter past]
        at made
      exact made
    refine ⟨Path.indexKey i, ?_⟩
    rwa [child?_indexKey before small, child?_indexKey after small]
  · rintro ⟨key, made⟩
    cases named : Path.index? key with
    | none =>
      simp only [child?, named, Option.bind_none] at made
      exact made.elim
    | some i =>
      obtain ⟨rfl, small⟩ := Path.eq_indexKey_of_index? named
      rw [child?_indexKey before small, child?_indexKey after small] at made
      exact ⟨i, made⟩

/-- The changes between nodes of one kind are those that their children bring about. -/
theorem mem_changes_iff {old new : Tree} (hold : old.Regular) (hnew : new.Regular)
    (same : old.face = new.face) {c : Change} :
    c ∈ changes old new ↔ ∃ key, KeyChange key (old.child? key) (new.child? key) c := by
  by_cases equal : old = new
  · subst equal
    rw [(changes_eq_nil_iff hold hold).2 rfl]
    simp only [List.not_mem_nil, false_iff, not_exists]
    intro key made
    cases there : old.child? key with
    | none =>
      rw [there] at made
      exact made
    | some s =>
      rw [there] at made
      have regular := regular_hereditary.child hold there
      obtain ⟨d, hd, -⟩ := made
      rw [(changes_eq_nil_iff regular regular).2 rfl] at hd
      cases hd
  · cases old with
    | map before =>
      obtain ⟨after, rfl⟩ := face_eq_map.1 same.symm
      unfold changes
      rw [if_neg equal]
      have sorted := (wellFormed_map.1 hold.wellFormed).1
      exact mem_changes_map sorted (wellFormed_map.1 hnew.wellFormed).1
    | list before =>
      obtain ⟨after, rfl⟩ := face_eq_list.1 same.symm
      unfold changes
      rw [if_neg equal]
      exact mem_changes_list hold hnew
    | null | bool | amount | text =>
      cases new <;> simp_all [face]

/-- A node that changes its kind is replaced. -/
theorem changes_of_face_ne {old new : Tree} (different : old.face ≠ new.face) :
    changes old new = [⟨Path.root, some old, some new⟩] := by
  have apart : old ≠ new := fun equal => different (congrArg face equal)
  unfold changes
  rw [if_neg apart]
  cases old <;> cases new <;> first | exact absurd rfl different | rfl

/-! ## Queries that stray -/

/-- A query of a path goes astray between two trees: it comes to a list that has to grow over a gap
before it reaches the item, or to an item that goes while others behind it move up. -/
inductive Strays : Tree → Tree → Path → Prop
  | gap {before after : List Tree} {key : String} {i : Nat} {p : Path}
      (named : Path.index? key = some i) (past : before.length < i)
      (there : ((after[i]?).bind (·.get? p)).isSome = true) :
      Strays (.list before) (.list after) (key :: p)
  | shift {before after : List Tree} {key : String} {i : Nat} {p : Path}
      (named : Path.index? key = some i) (gone : after.length ≤ i)
      (there : ((before[i + 1]?).bind (·.get? p)).isSome = true) :
      Strays (.list before) (.list after) (key :: p)
  | inside {old new s u : Tree} {key : String} {p : Path} (same : old.face = new.face)
      (before : old.child? key = some s) (after : new.child? key = some u)
      (strays : Strays s u p) : Strays old new (key :: p)

theorem Strays.face_eq {old new : Tree} {p : Path} (h : Strays old new p) :
    old.face = new.face := by
  cases h with
  | gap | shift => rfl
  | inside same => exact same

/-- Under a child of both trees a query strays as it does in the child. -/
theorem strays_cons_iff {old new s u : Tree} {key : String} {p : Path}
    (same : old.face = new.face) (before : old.child? key = some s)
    (after : new.child? key = some u) : Strays old new (key :: p) ↔ Strays s u p := by
  constructor
  · intro strays
    cases strays with
    | gap named past =>
      simp only [child?, named, Option.bind_some, List.getElem?_eq_none (Nat.le_of_lt past)]
        at before
      cases before
    | shift named gone =>
      simp only [child?, named, Option.bind_some, List.getElem?_eq_none gone] at after
      cases after
    | inside _ there thereNew strays =>
      rw [before] at there
      rw [after] at thereNew
      cases there
      cases thereNew
      exact strays
  · exact .inside same before after

/-- A query strays at a child that one of the trees has. -/
theorem Strays.isSome_child {old new : Tree} {key : String} {p : Path}
    (h : Strays old new (key :: p)) :
    (old.child? key).isSome = true ∨ (new.child? key).isSome = true := by
  cases h with
  | @gap before after _ i _ named _ there =>
    refine Or.inr ?_
    simp only [child?, named, Option.bind_some]
    cases located : after[i]? with
    | none => simp [located] at there
    | some u => rfl
  | @shift before after _ i _ named _ there =>
    refine Or.inl ?_
    simp only [child?, named, Option.bind_some]
    cases located : before[i + 1]? with
    | none => simp [located] at there
    | some s =>
      have inside := (List.getElem?_eq_some_iff.1 located).1
      rw [List.getElem?_eq_getElem (by omega)]
      rfl
  | inside _ before _ _ =>
    rw [before]
    exact Or.inl rfl

/-- A query strays where two lists differ in length unless the item comes into reach, or nothing
else takes its place. -/
theorem strays_list_iff {before after : List Tree} {key : String} {i : Nat} {p : Path}
    (named : Path.index? key = some i) (past : before.length ≤ i ∨ after.length ≤ i) :
    Strays (.list before) (.list after) (key :: p) ↔
      (before.length < i ∧ ((after[i]?).bind (·.get? p)).isSome = true) ∨
        (after.length ≤ i ∧ ((before[i + 1]?).bind (·.get? p)).isSome = true) := by
  constructor
  · intro strays
    cases strays with
    | gap named' past there =>
      obtain rfl := Option.some.inj (named.symm.trans named')
      exact Or.inl ⟨past, there⟩
    | shift named' gone there =>
      obtain rfl := Option.some.inj (named.symm.trans named')
      exact Or.inr ⟨gone, there⟩
    | inside _ there thereNew _ =>
      simp only [child?, named, Option.bind_some] at there thereNew
      have insideBefore := (List.getElem?_eq_some_iff.1 there).1
      have insideAfter := (List.getElem?_eq_some_iff.1 thereNew).1
      omega
  · rintro (⟨past, there⟩ | ⟨gone, there⟩)
    · exact .gap named past there
    · exact .shift named gone there

/-- In maps a query strays in children of both only. -/
theorem not_strays_map {before after : Dictionary Tree} {key : String} {p : Path}
    (absent : Dictionary.find? before key = none ∨ Dictionary.find? after key = none) :
    ¬ Strays (.map before) (.map after) (key :: p) := by
  intro strays
  cases strays with
  | inside _ there thereNew _ =>
    rcases absent with absent | absent
    · exact absurd (there.symm.trans absent) nofun
    · exact absurd (thereNew.symm.trans absent) nofun

section OneChild

variable {old new s u : Tree} {key : String}

/-- What is to be seen at a path once the child under its first key is taken out. -/
theorem get?_removed_iff (same : old.face = new.face) (there : old.child? key = some s)
    (gone : new.child? key = none) (p : Path) :
    ∃ t, Schedule.putBelow (some old) [key] none = some t ∧
      (t.get? (key :: p) = new.get? (key :: p) ↔ ¬ Strays old new (key :: p)) := by
  cases old with
  | map before =>
    obtain ⟨after, rfl⟩ := face_eq_map.1 same.symm
    refine ⟨.map (Dictionary.erase before key), Schedule.putBelow_of_put (put_none_ok.2 ⟨_, rfl⟩),
      ?_⟩
    have straight : ¬ Strays (.map before) (.map after) (key :: p) := not_strays_map (Or.inr gone)
    have nothing : Dictionary.find? after key = none := gone
    simp [get?_cons, child?, Dictionary.find?_erase, nothing, straight]
  | list before =>
    obtain ⟨after, rfl⟩ := face_eq_list.1 same.symm
    obtain ⟨i, named, located⟩ := Option.bind_eq_some_iff.1 there
    have inside := (List.getElem?_eq_some_iff.1 located).1
    have past : after.length ≤ i := by
      simpa [child?, named] using gone
    refine ⟨.list (before.eraseIdx i),
      Schedule.putBelow_of_put (put_none_ok.2 ⟨before[i]?, ?_⟩), ?_⟩
    · simp [takeOut, removeChild, named]
    · have next : (before.eraseIdx i)[i]? = before[i + 1]? := by
        simp [List.getElem?_eraseIdx]
      rw [get?_cons, get?_cons, gone, strays_list_iff named (Or.inr past)]
      simp only [child?, named, Option.bind_some, next, Option.bind_none]
      have := Nat.not_lt.2 (Nat.le_of_lt inside)
      simp [past, this]
  | null | bool | amount | text => cases there

/-- What is to be seen at a path once a child is put under its first key. -/
theorem get?_added_iff (same : old.face = new.face) (absent : old.child? key = none)
    (there : new.child? key = some u) (p : Path) :
    ∃ t, Schedule.putBelow (some old) [key] (some u) = some t ∧
      (t.get? (key :: p) = new.get? (key :: p) ↔ ¬ Strays old new (key :: p)) := by
  cases new with
  | map after =>
    obtain ⟨before, rfl⟩ := face_eq_map.1 same
    refine ⟨.map (Dictionary.insert key u before), Schedule.putBelow_of_put (put_some_ok.2 rfl), ?_⟩
    have straight : ¬ Strays (.map before) (.map after) (key :: p) := not_strays_map (Or.inl absent)
    simp [get?_cons, child?, show Dictionary.find? after key = some u from there, straight]
  | list after =>
    obtain ⟨before, rfl⟩ := face_eq_list.1 same
    obtain ⟨i, named, located⟩ := Option.bind_eq_some_iff.1 there
    have inside := (List.getElem?_eq_some_iff.1 located).1
    have past : before.length ≤ i := by
      simpa [child?, named] using absent
    rw [strays_list_iff named (Or.inl past)]
    by_cases next : i = before.length
    · subst next
      refine ⟨.list (before ++ [u]), Schedule.putBelow_of_put (put_some_ok.2 ?_), ?_⟩
      · simp [write, setChild, named]
      · simp [get?_cons, child?, named, located, Nat.not_le.2 inside]
    · have failed : setChild (.list before) key u = .error .pastEnd := by
        simp only [setChild, named]
        rw [if_neg (by omega), if_neg next]
      refine ⟨.list before, Schedule.putBelow_of_error (put_some_of_error failed), ?_⟩
      have gap : before.length < i := by omega
      rw [get?_cons, get?_cons, absent, there]
      simp only [gap, located, Nat.not_le.2 inside, Option.bind_none, Option.bind_some,
        true_and, false_and, or_false, Bool.not_eq_true, Option.isSome_eq_false_iff,
        Option.isNone_iff_eq_none]
      exact eq_comm
  | null | bool | amount | text => cases there

end OneChild

/-! ## All changes -/

/-- How the changes between two trees bear on a path. -/
inductive Bearing (old new : Tree) (p : Path) : Prop
  /-- None does. -/
  | apart (beside : ∀ c ∈ changes old new, ¬ Change.BearsOn p c) (same : old.get? p = new.get? p)
      (straight : ¬ Strays old new p)
  /-- One takes in the whole path. -/
  | above {c : Change} (member : c ∈ changes old new) (covers : c.path.covers p = true) {t : Tree}
      (put : Schedule.putBelow (some old) c.path c.new = some t)
      (shows : t.get? p = new.get? p ↔ ¬ Strays old new p)
  /-- They lie on a node that both trees have, or under it. -/
  | below {s u : Tree} (before : old.get? p = some s) (after : new.get? p = some u)
      (under : ∀ c ∈ changes old new, Change.BearsOn p c →
        p.covers c.path = true ∧ (c.path = p → c.new ≠ none))
      (straight : ¬ Strays old new p)

theorem bearsOn_cons_iff {key : String} {p : Path} {c : Change} :
    Change.BearsOn (key :: p) (c.under key) ↔ Change.BearsOn p c := by
  simp [Change.BearsOn, Change.under, Path.covers]

/-- Changes of other children do not bear on a path. -/
theorem KeyChange.key_eq {key other : String} {s u : Option Tree} {c : Change} {p : Path}
    (made : KeyChange other s u c) (bears : Change.BearsOn (key :: p) c) : other = key := by
  have head : c.path.head? = some other := by
    cases s with
    | none =>
      cases u with
      | none => exact made.elim
      | some u => rw [show c = _ from made]; rfl
    | some s =>
      cases u with
      | none => rw [show c = _ from made]; rfl
      | some u =>
        obtain ⟨d, -, rfl⟩ := made
        rfl
  obtain ⟨q, path⟩ := List.head?_eq_some_iff.1 head
  rw [Change.BearsOn, path] at bears
  rcases bears with covers | covers
  · simp only [Path.covers, List.isPrefixOf_cons_cons, Bool.and_eq_true, beq_iff_eq] at covers
    exact covers.1
  · simp only [Path.covers, List.isPrefixOf_cons_cons, Bool.and_eq_true, beq_iff_eq] at covers
    exact covers.1.symm

/-- A write in a child is a write in its holder. -/
theorem putBelow_under {holder s t : Tree} {key : String} {p : Path} {v : Option Tree}
    (wellFormed : holder.WellFormed) (found : holder.child? key = some s)
    (put : Schedule.putBelow (some s) p v = some t) :
    Schedule.putBelow (some holder) (key :: p) v = some (holder.replaceChild key t) := by
  cases p with
  | nil =>
    rw [Schedule.putBelow_root] at put
    rw [put]
    exact Schedule.putBelow_of_put (put_some_ok.2 (setChild_of_child? found t))
  | cons next p =>
    cases made : s.put (next :: p) v with
    | ok u =>
      rw [Schedule.putBelow_of_put made] at put
      cases put
      exact Schedule.putBelow_of_put (put_under found made)
    | error e =>
      rw [Schedule.putBelow_of_error made] at put
      cases put
      rw [replaceChild_self wellFormed found, Schedule.putBelow_some]
      split
      · rename_i u done
        obtain ⟨c, d, found', inner, -⟩ := put_cons_ok.1 done
        rw [found] at found'
        cases found'
        rw [made] at inner
        cases inner
      · rfl

/-- What bears on a path comes from the child under the first key. -/
theorem keyChange_of_bearsOn {old new : Tree} {key : String} {p : Path} {c : Change}
    (hold : old.Regular) (hnew : new.Regular) (same : old.face = new.face)
    (hc : c ∈ changes old new) (bears : Change.BearsOn (key :: p) c) :
    KeyChange key (old.child? key) (new.child? key) c := by
  obtain ⟨other, made⟩ := (mem_changes_iff hold hnew same).1 hc
  obtain rfl := made.key_eq bears
  exact made

/-- How the changes bear on a path in a child tells how they do in the holder. -/
theorem Bearing.under {old new s u : Tree} {key : String} {p : Path} (hold : old.Regular)
    (hnew : new.Regular) (same : old.face = new.face) (there : old.child? key = some s)
    (thereNew : new.child? key = some u) (h : Bearing s u p) : Bearing old new (key :: p) := by
  have strays := strays_cons_iff (p := p) same there thereNew
  have inside : ∀ c ∈ changes old new, Change.BearsOn (key :: p) c →
      ∃ d ∈ changes s u, d.under key = c ∧ Change.BearsOn p d := by
    intro c hc covers
    have made := keyChange_of_bearsOn hold hnew same hc covers
    rw [there, thereNew] at made
    obtain ⟨d, hd, rfl⟩ := made
    exact ⟨d, hd, rfl, bearsOn_cons_iff.1 covers⟩
  cases h with
  | apart beside sameNode straight =>
    refine .apart (fun c hc covers => ?_) ?_ (strays.not.2 straight)
    · obtain ⟨d, hd, -, bearsD⟩ := inside c hc covers
      exact beside d hd bearsD
    · rw [get?_cons, get?_cons, there, thereNew]
      exact sameNode
  | @above d hd covers t put shows =>
    refine .above (c := d.under key) ?_ ?_ (putBelow_under hold.wellFormed there put) ?_
    · refine (mem_changes_iff hold hnew same).2 ⟨key, ?_⟩
      rw [there, thereNew]
      exact ⟨d, hd, rfl⟩
    · simpa [Change.under, Path.covers] using covers
    · rw [get?_cons, get?_cons, child?_replaceChild_self t (by rw [there]; rfl), thereNew, strays]
      exact shows
  | @below v w before after under straight =>
    refine .below (s := v) (u := w) ?_ ?_ (fun c hc covers => ?_) (strays.not.2 straight)
    · rw [get?_cons, there]
      exact before
    · rw [get?_cons, thereNew]
      exact after
    · obtain ⟨d, hd, rfl, bearsD⟩ := inside c hc covers
      obtain ⟨coversD, stays⟩ := under d hd bearsD
      refine ⟨by simpa [Change.under, Path.covers] using coversD, fun path => stays ?_⟩
      exact (List.cons_eq_cons.1 path).2

/-- The changes between two trees bear on a path in one of three ways. -/
theorem bearing (p : Path) {old new : Tree} (hold : old.Regular) (hnew : new.Regular) :
    Bearing old new p := by
  induction p generalizing old new with
  | nil =>
    refine .below rfl rfl (fun c hc _ => ⟨rfl, fun path removal => ?_⟩) nofun
    cases between_changes old new hold hnew c hc with
    | whole => cases removal
    | added | removed | under => cases path
  | cons key p ih =>
    by_cases same : old.face = new.face
    · have member : ∀ {c}, KeyChange key (old.child? key) (new.child? key) c →
          c ∈ changes old new := fun made => (mem_changes_iff hold hnew same).2 ⟨key, made⟩
      cases there : old.child? key with
      | none =>
        cases thereNew : new.child? key with
        | none =>
          refine .apart (fun c hc covers => ?_) ?_ ?_
          · have made := keyChange_of_bearsOn hold hnew same hc covers
            rwa [there, thereNew] at made
          · rw [get?_cons, get?_cons, there, thereNew]
          · intro strays
            rcases strays.isSome_child with present | present
            · rw [there] at present
              cases present
            · rw [thereNew] at present
              cases present
        | some u =>
          obtain ⟨t, put, shows⟩ := get?_added_iff same there thereNew p
          refine .above (c := ⟨[key], none, some u⟩) (member ?_) ?_ put shows
          · rw [there, thereNew]
            rfl
          · exact Path.covers_append [key] p
      | some s =>
        cases thereNew : new.child? key with
        | none =>
          obtain ⟨t, put, shows⟩ := get?_removed_iff same there thereNew p
          refine .above (c := ⟨[key], some s, none⟩) (member ?_) ?_ put shows
          · rw [there, thereNew]
            rfl
          · exact Path.covers_append [key] p
        | some u =>
          exact .under hold hnew same there thereNew
            (ih (regular_hereditary.child hold there) (regular_hereditary.child hnew thereNew))
    · have whole := changes_of_face_ne same
      refine .above (c := ⟨Path.root, some old, some new⟩) (t := new) ?_ rfl rfl ?_
      · rw [whole]
        exact List.mem_cons_self
      · exact iff_of_true rfl fun strays => same strays.face_eq

end Tree

end TableMotion
