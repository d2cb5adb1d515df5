import Mathlib.Data.List.Induction
import TableMotion.Change
import TableMotion.Proofs.Overwriting

/-!
# Differences lead from one tree to the other

The changes between two trees can all be made in their order, each in its place, and the last of
them leaves the second tree (`leads_changes`). What is taken out of a list is its last item, so no
change moves another item.
-/

namespace TableMotion

namespace Tree

/-- A change is made in its place, and a removal from a list takes its last item. -/
structure Step (t : Tree) (c : Change) (u : Tree) : Prop where
  made : t.put c.path c.new = .ok u
  last : c.new = none → ∀ stem key items, c.path = stem ++ [key] →
    t.get? stem = some (.list items) → ∃ i, Path.index? key = some i ∧ items.length = i + 1

/-- The changes can be made in their order and lead from the first tree to the second. -/
inductive Leads : Tree → List Change → Tree → Prop
  | nil (t : Tree) : Leads t [] t
  | cons {t u w : Tree} {c : Change} {cs : List Change} :
    Step t c u → Leads u cs w → Leads t (c :: cs) w

theorem Leads.append {t u w : Tree} {cs ds : List Change} (h : Leads t cs u) (k : Leads u ds w) :
    Leads t (cs ++ ds) w := by
  induction h with
  | nil t => exact k
  | cons step _ ih => exact .cons step (ih k)

/-- What goes along with a tree from change to change goes along with all of them. -/
theorem Leads.holds_foldl {α : Type} {Q : α → Tree → Prop} {next : α → Change → α} {t u : Tree}
    {cs : List Change} (leads : Leads t cs u)
    (keeps : ∀ a t c u, c ∈ cs → Q a t → Step t c u → Q (next a c) u) {a : α} (h : Q a t) :
    Q (cs.foldl next a) u := by
  induction leads generalizing a with
  | nil t => exact h
  | @cons t u w c cs step _ ih =>
    rw [List.foldl_cons]
    apply ih
    · intro a t d u hd
      exact keeps a t d u (List.mem_cons_of_mem c hd)
    · exact keeps a t c u List.mem_cons_self h step

theorem Leads.single {t u : Tree} {c : Change} (h : Step t c u) : Leads t [c] u :=
  .cons h (.nil u)

/-! ## Below one key -/

theorem setChild_of_child? {t c : Tree} {key : String} (found : t.child? key = some c)
    (value : Tree) : t.setChild key value = .ok (t.replaceChild key value) := by
  cases t with
  | map fields => rfl
  | list items =>
    obtain ⟨i, named, atIndex⟩ := Option.bind_eq_some_iff.1 found
    have inside : i < items.length := (List.getElem?_eq_some_iff.1 atIndex).1
    simp [setChild, replaceChild, named, inside]
  | null | bool | amount | text => simp [child?] at found

theorem replaceChild_self {t c : Tree} {key : String} (h : t.WellFormed)
    (found : t.child? key = some c) : t.replaceChild key c = t := by
  cases t with
  | map fields =>
    have sorted : Dictionary.Sorted fields := h.1
    have same := sorted.assign_find? key
    rw [show Dictionary.find? fields key = some c from found] at same
    exact congrArg Tree.map same
  | list items =>
    obtain ⟨i, named, atIndex⟩ := Option.bind_eq_some_iff.1 found
    obtain ⟨inside, rfl⟩ := List.getElem?_eq_some_iff.1 atIndex
    simp [replaceChild, named]
  | null | bool | amount | text => simp [child?] at found

theorem replaceChild_replaceChild {t : Tree} (h : t.WellFormed) (key : String) (u w : Tree) :
    (t.replaceChild key u).replaceChild key w = t.replaceChild key w := by
  cases t with
  | map fields =>
    have sorted : Dictionary.Sorted fields := h.1
    exact congrArg Tree.map (sorted.assign_assign key (some u) (some w))
  | list items =>
    cases named : Path.index? key with
    | none => simp [replaceChild, named]
    | some i => simp [replaceChild, named, List.set_set]
  | null | bool | amount | text => rfl

/-- What can be put into a child can be put into its holder. -/
theorem put_under {holder t u : Tree} {key : String} {p : Path} {v : Option Tree}
    (found : holder.child? key = some t) (made : t.put p v = .ok u) :
    holder.put (key :: p) v = .ok (holder.replaceChild key u) := by
  cases p with
  | nil =>
    cases v with
    | none =>
      obtain ⟨old, impossible⟩ := put_none_ok.1 made
      cases impossible
    | some value =>
      cases put_some_ok.1 made
      exact put_some_ok.2 (setChild_of_child? found u)
  | cons next rest =>
    cases v with
    | none =>
      obtain ⟨old, inner⟩ := put_none_ok.1 made
      exact put_none_ok.2 ⟨old, takeOut_cons_ok.2 ⟨t, (old, u), found, inner, rfl⟩⟩
    | some value =>
      exact put_some_ok.2 (write_cons_ok.2 ⟨t, u, found, put_some_ok.1 made, rfl⟩)

/-- A step in a child is a step in its holder. -/
theorem Step.under {holder t u : Tree} {c : Change} {key : String}
    (found : holder.child? key = some t) (h : Step t c u) :
    Step holder (c.under key) (holder.replaceChild key u) where
  made := put_under found h.made
  last := by
    intro removal stem k items split atStem
    simp only [Change.under] at removal split
    rcases stem with _ | ⟨first, stem⟩
    · -- the child itself would be removed, but no step takes out a whole tree
      have whole : c.path = [] := by simpa using congrArg List.tail split
      have made := h.made
      rw [whole, removal, put_none_ok] at made
      obtain ⟨old, impossible⟩ := made
      cases impossible
    · obtain ⟨rfl, below⟩ := List.cons_eq_cons.1 split
      rw [get?_cons, found] at atStem
      exact h.last removal stem k items below atStem

/-- Changes of a child are changes of its holder. -/
theorem Leads.under {t u : Tree} {cs : List Change} (h : Leads t cs u) {holder : Tree}
    {key : String} (wellFormed : holder.WellFormed) (found : holder.child? key = some t)
    (values : ∀ c ∈ cs, WellFormedSlot c.new) (inner : t.WellFormed) :
    Leads holder (cs.map (Change.under key)) (holder.replaceChild key u) := by
  induction h generalizing holder with
  | nil t =>
    rw [replaceChild_self wellFormed found]
    exact .nil holder
  | @cons t u w c cs step _ ih =>
    have wellFormedU : u.WellFormed :=
      wellFormed_hereditary.put inner (values c List.mem_cons_self) step.made
    have stepHolder := step.under found
    have wellFormedHolder := wellFormed_hereditary.put wellFormed
      (values c List.mem_cons_self) stepHolder.made
    have foundU := child?_replaceChild_self u (by rw [found]; rfl)
    have rest := ih wellFormedHolder foundU
      (fun d hd => values d (List.mem_cons_of_mem c hd)) wellFormedU
    rw [replaceChild_replaceChild wellFormed] at rest
    exact .cons stepHolder rest

/-! ## The values of changes -/

/-- Both sides of a change have a property where they are there. -/
def HasSides (P : Tree → Prop) (c : Change) : Prop := Slot P c.old ∧ Slot P c.new

theorem hasSides_under {P : Tree → Prop} {cs : List Change} (h : ∀ c ∈ cs, HasSides P c)
    (key : String) : ∀ c ∈ cs.map (Change.under key), HasSides P c := by
  intro c hc
  obtain ⟨d, hd, rfl⟩ := List.mem_map.1 hc
  exact h d hd

variable {P : Tree → Prop}

theorem hasSides_addedItems {items : List Tree} (h : ∀ t ∈ items, P t) (n : Nat) :
    ∀ c ∈ addedItems n items, HasSides P c := by
  intro c hc
  obtain ⟨i, inside, rfl⟩ := List.mem_mapIdx.1 hc
  exact ⟨slot_none, slot_some.2 (h _ (List.getElem_mem inside))⟩

theorem hasSides_removedItems {items : List Tree} (h : ∀ t ∈ items, P t) (n : Nat) :
    ∀ c ∈ removedItems n items, HasSides P c := by
  intro c hc
  obtain ⟨i, inside, rfl⟩ := List.mem_mapIdx.1 (List.mem_reverse.1 hc)
  exact ⟨slot_some.2 (h _ (List.getElem_mem inside)), slot_none⟩

theorem hasSides_addedFields {old new : Dictionary Tree} (h : ∀ e ∈ new, P e.2) :
    ∀ c ∈ addedFields old new, HasSides P c := by
  intro c hc
  obtain ⟨e, he, rfl⟩ := List.mem_map.1 hc
  exact ⟨slot_none, slot_some.2 (h e (List.mem_filter.1 he).1)⟩

theorem hasSides_whole {old new : Tree} (hold : P old) (hnew : P new) :
    ∀ c ∈ if old = new then [] else [(⟨Path.root, some old, some new⟩ : Change)],
      HasSides P c := by
  intro c hc
  split at hc
  · cases hc
  · rw [List.mem_singleton.1 hc]
    exact ⟨slot_some.2 hold, slot_some.2 hnew⟩

mutual

/-- The sides of the changes between two trees are parts of them. -/
theorem hasSides_changes (parts : OfParts P) : (old new : Tree) → P old → P new →
    ∀ c ∈ changes old new, HasSides P c
  | .map before, new, hold, hnew => by
    cases new with
    | map after =>
      intro c hc
      unfold changes at hc
      split at hc
      · cases hc
      · rcases List.mem_append.1 hc with hc | hc
        · exact hasSides_changedFields parts before after (parts.fields hold)
            (parts.fields hnew) c hc
        · exact hasSides_addedFields (parts.fields hnew) c hc
    | list | null | bool | amount | text => exact hasSides_whole hold hnew
  | .list before, new, hold, hnew => by
    cases new with
    | list after =>
      intro c hc
      unfold changes at hc
      split at hc
      · cases hc
      · exact hasSides_changedItems parts 0 before after (parts.items hold) (parts.items hnew) c hc
    | map | null | bool | amount | text => exact hasSides_whole hold hnew
  | .null, new, hold, hnew | .bool _, new, hold, hnew | .amount _, new, hold, hnew
  | .text _, new, hold, hnew => by
    cases new <;> exact hasSides_whole hold hnew
termination_by structural old => old

theorem hasSides_changedFields (parts : OfParts P) : (before after : List (String × Tree)) →
    (∀ e ∈ before, P e.2) → (∀ e ∈ after, P e.2) →
    ∀ c ∈ changedFields before after, HasSides P c
  | [], after, hbefore, hafter => by
    intro c hc
    cases hc
  | (key, old) :: rest, after, hbefore, hafter => by
    intro c hc
    have hold := hbefore _ List.mem_cons_self
    rcases List.mem_append.1 hc with hc | hc
    · split at hc
      · rename_i new found
        have hnew := hafter _ (Dictionary.mem_of_find? found)
        exact hasSides_under (hasSides_changes parts old new hold hnew) key c hc
      · rw [List.mem_singleton.1 hc]
        exact ⟨slot_some.2 hold, slot_none⟩
    · exact hasSides_changedFields parts rest after
        (fun e he => hbefore e (List.mem_cons_of_mem _ he)) hafter c hc
termination_by structural before => before

theorem hasSides_changedItems (parts : OfParts P) (n : Nat) : (before after : List Tree) →
    (∀ t ∈ before, P t) → (∀ t ∈ after, P t) →
    ∀ c ∈ changedItems n before after, HasSides P c
  | [], after, hbefore, hafter => hasSides_addedItems hafter n
  | old :: rest, [], hbefore, hafter => hasSides_removedItems hbefore n
  | old :: rest, new :: more, hbefore, hafter => by
    intro c hc
    rcases List.mem_append.1 hc with hc | hc
    · exact hasSides_under (hasSides_changes parts old new (hbefore _ List.mem_cons_self)
        (hafter _ List.mem_cons_self)) _ c hc
    · exact hasSides_changedItems parts (n + 1) rest more
        (fun t ht => hbefore t (List.mem_cons_of_mem _ ht))
        (fun t ht => hafter t (List.mem_cons_of_mem _ ht)) c hc
termination_by structural before => before

end

/-! ## The changes of a map -/

/-- A dictionary with what another one has under some keys. -/
def overlay (source : Dictionary Tree) (keys : List String) (d : Dictionary Tree) :
    Dictionary Tree :=
  keys.foldl (fun d key => d.assign key (Dictionary.find? source key)) d

theorem find?_overlay (source d : Dictionary Tree) (keys : List String) (key : String) :
    Dictionary.find? (overlay source keys d) key =
      if key ∈ keys then Dictionary.find? source key else Dictionary.find? d key := by
  induction keys generalizing d with
  | nil => rfl
  | cons k keys ih =>
    show Dictionary.find? (overlay source keys (d.assign k (Dictionary.find? source k))) key = _
    rw [ih]
    by_cases same : k = key
    · subst same
      simp
    · rw [Dictionary.find?_assign_of_ne _ _ same]
      simp [Ne.symm same]

theorem sorted_overlay (source : Dictionary Tree) {d : Dictionary Tree}
    (h : Dictionary.Sorted d) (keys : List String) :
    Dictionary.Sorted (overlay source keys d) := by
  induction keys generalizing d with
  | nil => exact h
  | cons k keys ih => exact ih (h.assign k _)

theorem wellFormed_assign {d : Dictionary Tree} (h : (Tree.map d).WellFormed) (key : String)
    {value : Option Tree} (hv : WellFormedSlot value) :
    (Tree.map (d.assign key value)).WellFormed := by
  obtain ⟨sorted, inner⟩ := wellFormed_map.1 h
  refine wellFormed_map.2 ⟨sorted.assign key value, fun e he => ?_⟩
  rcases Dictionary.mem_assign he with new | old
  · exact hv e.2 new
  · exact inner e old

/-- One key of a map can always be written or taken out. -/
theorem step_assign (d : Dictionary Tree) (key : String) (old new : Option Tree) :
    Step (.map d) ⟨[key], old, new⟩ (.map (d.assign key new)) where
  made := by
    cases new with
    | none => exact put_none_ok.2 ⟨Dictionary.find? d key, rfl⟩
    | some value => exact put_some_ok.2 rfl
  last := by
    intro _ stem k items split atStem
    rcases stem with _ | ⟨first, stem⟩
    · cases atStem
    · have := congrArg List.length split
      simp at this

theorem leads_addedFields {after es : Dictionary Tree}
    (found : ∀ e ∈ es, Dictionary.find? after e.1 = some e.2) (d : Dictionary Tree) :
    Leads (.map d) (es.map fun e => ⟨[e.1], none, some e.2⟩)
      (.map (overlay after (es.map (·.1)) d)) := by
  induction es generalizing d with
  | nil => exact .nil _
  | cons e es ih =>
    have rest := ih (fun x hx => found x (List.mem_cons_of_mem e hx)) (d.assign e.1 (some e.2))
    have step := step_assign d e.1 none (some e.2)
    rw [← found e List.mem_cons_self] at rest step
    rw [List.map_cons, ← found e List.mem_cons_self]
    exact .cons step rest

/-- The two passes over the keys leave the second map. -/
theorem overlay_eq {before after : Dictionary Tree} (hb : Dictionary.Sorted before)
    (ha : Dictionary.Sorted after) :
    overlay after ((after.filter fun e => (Dictionary.find? before e.1).isNone).map (·.1))
      (overlay after (before.map (·.1)) before) = after := by
  apply (sorted_overlay _ (sorted_overlay _ hb _) _).ext ha
  intro key
  rw [find?_overlay, find?_overlay]
  split
  · rfl
  · rename_i notAdded
    split
    · rfl
    -- a key that was neither there before nor is added is in neither dictionary
    · rename_i notBefore
      have absent : Dictionary.find? before key = none := by
        cases found : Dictionary.find? before key with
        | none => rfl
        | some t =>
          exact absurd (List.mem_map_of_mem (Dictionary.mem_of_find? found)) notBefore
      rw [absent]
      cases found : Dictionary.find? after key with
      | none => rfl
      | some t =>
        have added : (key, t) ∈ after.filter fun e => (Dictionary.find? before e.1).isNone :=
          List.mem_filter.2 ⟨Dictionary.mem_of_find? found, by simp [absent]⟩
        exact absurd (List.mem_map_of_mem added) notAdded

/-! ## The changes of a list -/

theorem length_le_of_regular {items : List Tree} (h : (Tree.list items).Regular) :
    items.length ≤ 0x10000000000000000 := by
  have node := (all_list.1 h.addressable).1
  simpa [isAddressable] using node

theorem addedItems_cons (n : Nat) (t : Tree) (items : List Tree) :
    addedItems n (t :: items) =
      ⟨[Path.indexKey n], none, some t⟩ :: addedItems (n + 1) items := by
  simp only [addedItems, List.mapIdx_cons, Nat.add_zero, List.cons.injEq, true_and]
  apply congrArg (List.mapIdx · items)
  funext i t
  rw [Nat.add_right_comm, Nat.add_assoc]

theorem removedItems_snoc (n : Nat) (items : List Tree) (t : Tree) :
    removedItems n (items ++ [t]) =
      ⟨[Path.indexKey (n + items.length)], some t, none⟩ :: removedItems n items := by
  simp [removedItems, List.mapIdx_append]

theorem step_append {items : List Tree} (t : Tree) (short : items.length < 0x10000000000000000) :
    Step (.list items) ⟨[Path.indexKey items.length], none, some t⟩ (.list (items ++ [t])) where
  made := by
    rw [put_some_ok]
    simp [write, setChild, Path.index?_indexKey short]
  last := nofun

theorem step_dropLast (items : List Tree) (t : Tree)
    (short : items.length < 0x10000000000000000) :
    Step (.list (items ++ [t])) ⟨[Path.indexKey items.length], some t, none⟩ (.list items) where
  made := by
    rw [put_none_ok]
    refine ⟨some t, ?_⟩
    simp [takeOut, removeChild, Path.index?_indexKey short, List.eraseIdx_append_of_length_le]
  last := by
    intro _ stem key more split atStem
    rcases stem with _ | ⟨first, stem⟩
    · obtain rfl : Path.indexKey items.length = key := by simpa using split
      obtain rfl : items ++ [t] = more := by simpa [get?] using atStem
      exact ⟨items.length, Path.index?_indexKey short, by simp⟩
    · have := congrArg List.length split
      simp at this

theorem leads_addedItems (items : List Tree) (added : List Tree)
    (short : (items ++ added).length ≤ 0x10000000000000000) :
    Leads (.list items) (addedItems items.length added) (.list (items ++ added)) := by
  induction added generalizing items with
  | nil =>
    rw [List.append_nil]
    exact .nil _
  | cons t added ih =>
    rw [addedItems_cons]
    have room : items.length < 0x10000000000000000 := by
      simp only [List.length_append, List.length_cons] at short
      omega
    have rest := ih (items ++ [t]) (by simpa using short)
    rw [List.append_assoc, List.singleton_append, List.length_append, List.length_singleton] at rest
    exact .cons (step_append t room) rest

theorem leads_removedItems (items : List Tree) (removed : List Tree)
    (short : (items ++ removed).length ≤ 0x10000000000000000) :
    Leads (.list (items ++ removed)) (removedItems items.length removed) (.list items) := by
  induction removed using List.reverseRecOn with
  | nil =>
    rw [List.append_nil]
    exact .nil _
  | append_singleton removed t ih =>
    simp only [List.length_append, List.length_singleton] at short
    have rest := ih (by simp only [List.length_append]; omega)
    have step := step_dropLast (items ++ removed) t (by simp only [List.length_append]; omega)
    rw [List.length_append, List.append_assoc] at step
    rw [removedItems_snoc]
    exact .cons step rest

/-! ## All changes -/

theorem wellFormed_news {old new : Tree} (hold : old.Regular) (hnew : new.Regular) :
    ∀ c ∈ changes old new, WellFormedSlot c.new := fun c hc =>
  (hasSides_changes wellFormed_ofParts old new hold.wellFormed hnew.wellFormed c hc).2

/-- A node that changes its kind is replaced as a whole. -/
theorem leads_whole (old new : Tree) :
    Leads old (if old = new then [] else [⟨Path.root, some old, some new⟩]) new := by
  split
  · rename_i same
    rw [same]
    exact .nil new
  · exact .single ⟨put_some_ok.2 rfl, nofun⟩

theorem regular_list_replace {done rest : List Tree} {old new : Tree}
    (h : (Tree.list (done ++ old :: rest)).Regular) (hnew : new.Regular) :
    (Tree.list (done ++ new :: rest)).Regular := by
  have short := length_le_of_regular h
  have parts : ∀ t ∈ done ++ new :: rest, t.Regular := by
    intro t ht
    rcases List.mem_append.1 ht with ht | ht
    · exact regular_ofParts.items h t (List.mem_append_left _ ht)
    · rcases List.mem_cons.1 ht with rfl | ht
      · exact hnew
      · exact regular_ofParts.items h t (List.mem_append_right _ (List.mem_cons_of_mem old ht))
  constructor
  · exact (wellFormed_iff_all _).2
      (all_list.2 ⟨rfl, fun t ht => (wellFormed_iff_all t).1 (parts t ht).wellFormed⟩)
  · refine all_list.2 ⟨?_, fun t ht => (parts t ht).addressable⟩
    simp only [List.length_append, List.length_cons] at short
    simp only [isAddressable, List.length_append, List.length_cons, decide_eq_true_eq]
    omega

mutual

/-- The changes between two trees lead from the first to the second. -/
theorem leads_changes : (old new : Tree) → old.Regular → new.Regular →
    Leads old (changes old new) new
  | .map before, new, hold, hnew => by
    cases new with
    | map after =>
      unfold changes
      split
      · rename_i same
        rw [same]
        exact .nil _
      · have sortedBefore := (wellFormed_map.1 hold.wellFormed).1
        have sortedAfter := (wellFormed_map.1 hnew.wellFormed).1
        have first := leads_changedFields before after before sortedBefore
          (fun e he => sortedBefore.find?_eq_some_iff.2 he) hold.wellFormed
          (regular_ofParts.fields hold) (regular_ofParts.fields hnew)
        -- first the fields that change or go, then those that are added
        have added : ∀ e ∈ after.filter fun e => (Dictionary.find? before e.1).isNone,
            Dictionary.find? after e.1 = some e.2 := fun e he =>
          sortedAfter.find?_eq_some_iff.2 (List.mem_filter.1 he).1
        have second := leads_addedFields added (overlay after (before.map (·.1)) before)
        rw [overlay_eq sortedBefore sortedAfter] at second
        exact first.append second
    | list | null | bool | amount | text => exact leads_whole _ _
  | .list before, new, hold, hnew => by
    cases new with
    | list after =>
      unfold changes
      split
      · rename_i same
        rw [same]
        exact .nil _
      · exact leads_changedItems before after [] hold hnew
    | map | null | bool | amount | text => exact leads_whole _ _
  | .null, new, hold, hnew | .bool _, new, hold, hnew | .amount _, new, hold, hnew
  | .text _, new, hold, hnew => by
    cases new <;> exact leads_whole _ _
termination_by structural old => old

theorem leads_changedFields : (before after d : List (String × Tree)) →
    Dictionary.Sorted before → (∀ e ∈ before, Dictionary.find? d e.1 = some e.2) →
    (Tree.map d).WellFormed → (∀ e ∈ before, e.2.Regular) → (∀ e ∈ after, e.2.Regular) →
    Leads (.map d) (changedFields before after) (.map (overlay after (before.map (·.1)) d))
  | [], after, d, _, _, _, _, _ => .nil _
  | (key, old) :: rest, after, d, sorted, found, wellFormed, hbefore, hafter => by
    have present := found _ List.mem_cons_self
    have hold := hbefore _ List.mem_cons_self
    have newWellFormed : WellFormedSlot (Dictionary.find? after key) := by
      intro t ht
      exact (hafter _ (Dictionary.mem_of_find? ht)).wellFormed
    have here : Leads (.map d)
        (match Dictionary.find? after key with
          | some new => (changes old new).map (Change.under key)
          | none => [⟨[key], some old, none⟩])
        (.map (Dictionary.assign d key (Dictionary.find? after key))) := by
      cases there : Dictionary.find? after key with
      | some new =>
        have hnew := hafter _ (Dictionary.mem_of_find? there)
        exact (leads_changes old new hold hnew).under wellFormed present
          (wellFormed_news hold hnew) hold.wellFormed
      | none => exact .single (step_assign d key (some old) none)
    -- the fields that come later are as they were
    have others : ∀ e ∈ rest,
        Dictionary.find? (Dictionary.assign d key (Dictionary.find? after key)) e.1 =
          some e.2 := by
      intro e he
      have apart : key ≠ e.1 := by
        rintro rfl
        exact String.lt_irrefl _ ((Dictionary.sorted_cons.1 sorted).1 e he)
      rw [Dictionary.find?_assign_of_ne _ _ apart]
      exact found e (List.mem_cons_of_mem _ he)
    exact here.append (leads_changedFields rest after _ (Dictionary.sorted_cons.1 sorted).2 others
      (wellFormed_assign wellFormed key newWellFormed)
      (fun e he => hbefore e (List.mem_cons_of_mem _ he)) hafter)
termination_by structural before => before

theorem leads_changedItems : (before after done : List Tree) →
    (Tree.list (done ++ before)).Regular → (Tree.list (done ++ after)).Regular →
    Leads (.list (done ++ before)) (changedItems done.length before after) (.list (done ++ after))
  | [], after, done, hbefore, hafter => by
    rw [List.append_nil]
    exact leads_addedItems done after (length_le_of_regular hafter)
  | old :: rest, [], done, hbefore, hafter => by
    rw [List.append_nil]
    exact leads_removedItems done (old :: rest) (length_le_of_regular hbefore)
  | old :: rest, new :: more, done, hbefore, hafter => by
    have short := length_le_of_regular hbefore
    have named : Path.index? (Path.indexKey done.length) = some done.length :=
      Path.index?_indexKey (by
        simp only [List.length_append, List.length_cons] at short
        omega)
    have hold := regular_ofParts.items hbefore old (by simp)
    have hnew := regular_ofParts.items hafter new (by simp)
    have present : (Tree.list (done ++ old :: rest)).child? (Path.indexKey done.length) =
        some old := by
      simp [child?, named]
    have here := (leads_changes old new hold hnew).under hbefore.wellFormed present
      (wellFormed_news hold hnew) hold.wellFormed
    have replaced : (Tree.list (done ++ old :: rest)).replaceChild
        (Path.indexKey done.length) new = .list (done ++ [new] ++ rest) := by
      simp [replaceChild, named]
    rw [replaced] at here
    have there := leads_changedItems rest more (done ++ [new])
      (by simpa using regular_list_replace hbefore hnew) (by simpa using hafter)
    rw [List.length_append, List.length_singleton] at there
    simpa [changedItems] using here.append there
termination_by structural before => before

end

/-! ## Applying the changes -/

/-- Changes that lead to a tree make it when they are applied, and none of them is skipped. -/
theorem Leads.applyChanges_eq {t u : Tree} {cs : List Change} (h : Leads t cs u) :
    t.applyChanges cs = (u, []) := by
  refine h.holds_foldl (Q := fun s t => s = (t, [])) ?_ rfl
  rintro s t c u - rfl step
  show applyChange (t, []) c = (u, [])
  simp only [applyChange, step.made]

theorem changes_eq_nil_iff {old new : Tree} (hold : old.Regular) (hnew : new.Regular) :
    changes old new = [] ↔ old = new := by
  constructor
  · intro nothing
    have leads := leads_changes old new hold hnew
    rw [nothing] at leads
    cases leads
    rfl
  · rintro rfl
    unfold changes
    exact if_pos rfl

/-- The changes between two trees, applied in their order, make the second of the first, none of
them is skipped, and only between equal trees there are none. -/
theorem applyChanges_changes {old new : Tree} (hold : old.Regular) (hnew : new.Regular) :
    old.applyChanges (changes old new) = (new, []) ∧ (changes old new = [] ↔ old = new) := by
  constructor
  · exact (leads_changes old new hold hnew).applyChanges_eq
  · exact changes_eq_nil_iff hold hnew

/-- A hand that ends: a list grows, another one shrinks below an item that changes, keys come and
go, among them one that is empty and one that names no index, and a pot changes its kind. -/
theorem applyChanges_changes_next_hand :
    let old : Tree := .map [("", .null), ("board", .list []), ("pots", .amount default),
      ("seats", .list [.map [("cards", .list [.text "As", .text "Kd"])], .text "free", .null])]
    let new : Tree := .map [("007", .bool true), ("board", .list [.text "Qh", .list [.null]]),
      ("pots", .list []), ("seats", .list [.map [("cards", .list [.text "2c"])]])]
    (changes old new).length = 9 ∧ old.applyChanges (changes old new) = (new, []) ∧
      (changes old new = [] ↔ old = new) := by
  intro old new
  have hold : old.Regular := by decide +kernel
  have hnew : new.Regular := by decide +kernel
  exact ⟨by decide +kernel, applyChanges_changes hold hnew⟩

end Tree

end TableMotion
