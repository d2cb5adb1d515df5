import Mathlib.Data.List.Induction
import TableMotion.Proofs.Differences
import TableMotion.Proofs.Editing
import TableMotion.Proofs.Faces

/-!
# What transitions come to

With lists in the state, a removal moves other items, and transitions are no longer writes one after
another. What they come to is read off path by path: at each path stands what the newest transition
that covers it puts there (`outcome`). Transitions carry a state if that is the state everywhere;
insertions that interrupt others pass from state to state (`Carries.insert`).
-/

namespace TableMotion

namespace Tree

/-! ## The faces that a change leaves -/

variable {t u : Tree} {c : Change}

theorem Step.noneBehind (step : Step t c u) (removal : c.new = none) :
    NoneBehind (some t) c.path := by
  rintro stem q ⟨key, other, i, j, split, rfl, named, located, less⟩ isList
  obtain ⟨node, atStem, isListNode⟩ := Option.map_eq_some_iff.1 isList
  obtain ⟨items, rfl⟩ := face_eq_list.1 isListNode
  obtain ⟨last, named', length⟩ := step.last removal stem key items split atStem
  obtain rfl : i = last := Option.some.inj (named.symm.trans named')
  have nothing : items[j]? = none := List.getElem?_eq_none (by omega)
  rw [faceAt_append, atStem, faceAt_cons]
  simp [child?, located, nothing]

theorem Step.faceAt_under (step : Step t c u) (regular : t.Regular) (q : Path) :
    faceAt (some u) (c.path ++ q) = faceAt c.new q := by
  have made := Schedule.putBelow_of_put step.made
  cases new : c.new with
  | some value =>
    rw [← made, new]
    exact Schedule.faceAt_putBelow_set (new ▸ step.made) q
  | none =>
    rw [← made, new]
    exact Schedule.faceAt_putBelow_removal (slot_some.2 regular) (step.noneBehind new) q

theorem Step.faceAt_off (step : Step t c u) {x : Path} (apart : c.path.covers x = false) :
    faceAt (some u) x = faceAt (some t) x := by
  rw [← Schedule.putBelow_of_put step.made]
  exact Schedule.faceAt_putBelow_off apart fun removal => (step.noneBehind removal).not_displaced x

/-- What stands before an item that changes is there. -/
theorem Step.isSome_before (step : Step t c u) (regular : t.Regular) {stem q : Path}
    (behind : Behind stem q c.path) (isList : faceAt (some t) stem = some (.list [])) :
    (faceAt (some t) q).isSome = true := by
  cases new : c.new with
  | some value =>
    have written : (faceAt (some u) c.path).isSome = true := by
      have atPath := step.faceAt_under regular []
      rw [List.append_nil, new] at atPath
      rw [atPath]
      rfl
    have present := isSome_of_behind behind
      ((step.faceAt_off behind.not_covers_stem.2).trans isList) written
    rwa [step.faceAt_off (behind.not_covers (Path.covers_self q))] at present
  | none =>
    apply isSome_of_behind behind isList
    obtain ⟨key, other, i, j, -, split, -, located, -⟩ := behind
    obtain ⟨node, atStem, isListNode⟩ := Option.map_eq_some_iff.1 isList
    obtain ⟨items, rfl⟩ := face_eq_list.1 isListNode
    obtain ⟨last, named, length⟩ := step.last new stem other items split atStem
    obtain rfl : j = last := Option.some.inj (located.symm.trans named)
    have inside : j < items.length := by omega
    rw [split, faceAt_append, atStem, faceAt_cons]
    simp [child?, located, inside, faceAt_nil]

end Tree

namespace Schedule

open TableMotion.Tree Transition

/-! ## The newest transition that covers a path -/

/-- What the newest of the transitions that cover a path puts there in the end. -/
def outcome (rs : List Transition) (x : Path) : Option Tree :=
  rs.foldl (fun old r =>
    match x.below? r.path with
    | some q => faceAt r.finish q
    | none => old) none

/-- No transition covers a path. -/
def NoneCovers (rs : List Transition) (x : Path) : Prop := ∀ r ∈ rs, r.path.covers x = false

theorem NoneCovers.above {rs : List Transition} {x q : Path} (h : NoneCovers rs x)
    (above : q.covers x = true) : NoneCovers rs q :=
  fun r hr => Path.not_covers_above (h r hr) above

theorem outcome_snoc (rs : List Transition) (r : Transition) (x : Path) :
    outcome (rs ++ [r]) x =
      match x.below? r.path with
      | some q => faceAt r.finish q
      | none => outcome rs x := by
  simp [outcome]

theorem outcome_snoc_of_apart {r : Transition} {x : Path} (apart : r.path.covers x = false)
    (rs : List Transition) : outcome (rs ++ [r]) x = outcome rs x := by
  rw [outcome_snoc, Path.below?_eq_none apart]

theorem outcome_append_of_noneCovers {ss : List Transition} {x : Path} (free : NoneCovers ss x)
    (rs : List Transition) : outcome (rs ++ ss) x = outcome rs x := by
  induction ss using List.reverseRecOn with
  | nil => rw [List.append_nil]
  | append_singleton ss r ih =>
    have apart := free r (List.mem_append_right ss List.mem_cons_self)
    rw [← List.append_assoc, outcome_snoc_of_apart apart]
    exact ih fun y hy => free y (List.mem_append_left [r] hy)

theorem outcome_of_noneCovers {rs : List Transition} {x : Path} (free : NoneCovers rs x) :
    outcome rs x = none :=
  outcome_append_of_noneCovers free []

/-- What is newer and covers the path decides. -/
theorem outcome_of_newest (before : List Transition) {behind : List Transition} {r : Transition}
    {q : Path} (free : NoneCovers behind (r.path ++ q)) :
    outcome (before ++ r :: behind) (r.path ++ q) = faceAt r.finish q := by
  rw [List.append_cons, outcome_append_of_noneCovers free, outcome_snoc, Path.below?_append]

theorem exists_newest {rs : List Transition} {x : Path} (covered : ¬ NoneCovers rs x) :
    ∃ before r behind q, rs = before ++ r :: behind ∧ x = r.path ++ q ∧ NoneCovers behind x := by
  induction rs using List.reverseRecOn with
  | nil => exact absurd (fun r hr => by cases hr) covered
  | append_singleton rs r ih =>
    by_cases covers : r.path.covers x = true
    · obtain ⟨q, rfl⟩ := Path.covers_iff.1 covers
      exact ⟨rs, r, [], q, rfl, rfl, fun y hy => by cases hy⟩
    · have earlier : ¬ NoneCovers rs x := by
        intro free
        apply covered
        intro y hy
        rcases List.mem_append.1 hy with hy | hy
        · exact free y hy
        · rw [List.mem_singleton.1 hy]
          simpa using covers
      obtain ⟨before, y, behind, q, rfl, rfl, free⟩ := ih earlier
      refine ⟨before, y, behind ++ [r], q, by simp, rfl, ?_⟩
      intro z hz
      rcases List.mem_append.1 hz with hz | hz
      · exact free z hz
      · rw [List.mem_singleton.1 hz]
        simpa using covers

/-- What does not cover the path can be left out. -/
theorem outcome_filter {rs : List Transition} {keep : Transition → Bool} {x : Path}
    (apart : ∀ r ∈ rs, keep r = false → r.path.covers x = false) :
    outcome (rs.filter keep) x = outcome rs x := by
  induction rs using List.reverseRecOn with
  | nil => rfl
  | append_singleton rs r ih =>
    have former := ih fun y hy => apart y (List.mem_append_left [r] hy)
    rw [List.filter_append]
    by_cases kept : keep r = true
    · rw [List.filter_cons_of_pos kept, List.filter_nil, outcome_snoc, outcome_snoc, former]
    · have apartR := apart r (List.mem_append_right rs List.mem_cons_self) (by simpa using kept)
      rw [List.filter_cons_of_neg kept, List.filter_nil, List.append_nil, former,
        outcome_snoc_of_apart apartR]

theorem newer_of_mem_split {before behind : List Transition} {r y : Transition}
    (ordered : (before ++ r :: behind).Pairwise Older) (hy : y ∈ before ++ r :: behind)
    (newer : r.Older y) : y ∈ behind :=
  mem_right_of_row Older.asymm ordered hy newer

/-! ## Carrying a state -/

/-- The transitions, from the oldest to the newest, come to a state. If one of them takes an item
out of a list, what stands behind that item is newer, and if anything newer was written behind it,
the item's place is newer too. -/
structure Carries (rs : List Transition) (state : Tree) : Prop where
  ordered : rs.Pairwise Older
  regular : ∀ r ∈ rs, RegularSlot r.finish
  stateRegular : state.Regular
  leads : ∀ x, outcome rs x = faceAt (some state) x
  behind : ∀ g ∈ rs, g.finish = none → ∀ stem q, Behind stem g.path q →
    faceAt (some state) stem = some (.list []) → (faceAt (some state) q).isSome = true →
    ∃ y ∈ rs, g.Older y ∧ y.path.covers q = true
  place : ∀ g ∈ rs, g.finish = none → ∀ x ∈ rs, g.Older x → ∀ stem, Behind stem g.path x.path →
    faceAt (some state) stem = some (.list []) →
    ∃ y ∈ rs, g.Older y ∧ y.path.covers g.path = true

variable {rs : List Transition} {state : Tree}

/-- What a removal took away, and is there again, is newer. -/
theorem Carries.covered_of_present (h : Carries rs state) {g : Transition} (hg : g ∈ rs)
    (removal : g.finish = none) (present : (faceAt (some state) g.path).isSome = true) :
    ∃ y ∈ rs, g.Older y ∧ y.path.covers g.path = true := by
  obtain ⟨before, behind, rfl⟩ := List.append_of_mem hg
  have newer := (List.pairwise_append.1 h.ordered).2.1
  by_contra none
  have free : NoneCovers behind (g.path ++ []) := by
    intro y hy
    rw [List.append_nil, ← Bool.not_eq_true]
    intro covers
    exact none ⟨y, List.mem_append_right before (List.mem_cons_of_mem g hy),
      List.rel_of_pairwise_cons newer hy, covers⟩
  have gone := outcome_of_newest before free
  rw [List.append_nil, h.leads, removal, faceAt_none] at gone
  rw [gone] at present
  cases present

/-! ## Folding what is cut short -/

/-- Folding at one path changes nothing in a region off the path in which no removal moves
anything. -/
theorem faceAt_handAllDown {V : Path → Prop} {p : Path} {gone : List Transition}
    (paths : ∀ g ∈ gone, g.path = p) {r : Transition} (closed : ∀ a b, V (a ++ b) → V a)
    (apart : ∀ q, V q → p.covers (r.path ++ q) = false)
    (still : ∀ g ∈ gone, r.Older g → g.finish = none → ∀ below, p = r.path ++ below →
      ∀ q, V q → ¬ Displaced r.finish below q) :
    ∀ q, V q → faceAt (handAllDown gone r).finish q = faceAt r.finish q := by
  induction gone generalizing r with
  | nil => exact fun q _ => rfl
  | cons g gone ih =>
    have pathsRest := fun x hx => paths x (List.mem_cons_of_mem g hx)
    have stillRest := fun x hx => still x (List.mem_cons_of_mem g hx)
    by_cases folds : r.Older g ∧ r.path.covers p = true
    · obtain ⟨older, covers⟩ := folds
      obtain ⟨below, split⟩ := Path.covers_iff.1 covers
      have atPath : g.path = r.path ++ below := by rw [paths g List.mem_cons_self, split]
      have folded : (handDown g r).finish = putBelow r.finish below g.finish := by
        rw [handDown_eq older atPath]
      have same : ∀ q, V q → faceAt (handDown g r).finish q = faceAt r.finish q := by
        intro q hq
        have apartBelow : Path.covers below q = false := by
          have apartQ := apart q hq
          rw [← Bool.not_eq_true] at apartQ ⊢
          intro covered
          obtain ⟨rest, rfl⟩ := Path.covers_iff.1 covered
          apply apartQ
          rw [split, ← List.append_assoc]
          exact Path.covers_append ..
        rw [folded]
        exact faceAt_putBelow_off apartBelow fun removal =>
          still g List.mem_cons_self older removal below split q hq
      intro q hq
      rw [handAllDown_cons, ih pathsRest (by simpa using apart) ?_ q hq, same q hq]
      -- the region looks the same, so nothing that was not moved before is moved now
      rintro x hx olderX removal more splitMore a ha ⟨stem, o, behind, under, isList, present⟩
      rw [handDown_path] at splitMore
      rw [older_handDown_iff] at olderX
      obtain ⟨rest, rfl⟩ := Path.covers_iff.1 under
      obtain ⟨item, rfl⟩ := Path.covers_iff.1 behind.covers_stem.2
      have inRegion : V (stem ++ item) := closed _ rest ha
      rw [same _ (closed stem item inRegion)] at isList
      rw [same _ inRegion] at present
      exact stillRest x hx olderX removal more splitMore _ ha
        ⟨stem, _, behind, under, isList, present⟩
    · have unchanged : handDown g r = r := by
        rcases not_and_or.1 folds with newer | apartPath
        · exact handDown_of_not_older newer
        · apply handDown_of_not_covers
          rw [paths g List.mem_cons_self]
          simpa using apartPath
      rw [handAllDown_cons, unchanged]
      exact ih pathsRest apart stillRest

theorem regular_handDown {g r : Transition} (hg : RegularSlot g.finish)
    (hr : RegularSlot r.finish) : RegularSlot (handDown g r).finish := by
  unfold handDown
  split
  · split
    · exact hr
    · exact Slot.putBelow regular_hereditary hr hg _
  · exact hr

theorem regular_handAllDown {gone : List Transition} (hg : ∀ g ∈ gone, RegularSlot g.finish)
    {r : Transition} (hr : RegularSlot r.finish) : RegularSlot (handAllDown gone r).finish := by
  apply holds_handAllDown (Q := fun r => RegularSlot r.finish)
  · intro g member r hr
    exact regular_handDown (hg g member) hr
  · exact hr

/-- A transition becomes a removal only by folding a removal of its own path into it. -/
theorem finish_handAllDown_eq_none {gone : List Transition} {r : Transition}
    (removal : (handAllDown gone r).finish = none) :
    r.finish = none ∨ ∃ g ∈ gone, r.Older g ∧ g.path = r.path ∧ g.finish = none := by
  induction gone generalizing r with
  | nil => exact Or.inl removal
  | cons g gone ih =>
    rw [handAllDown_cons] at removal
    rcases ih removal with here | ⟨x, hx, older, path, nothing⟩
    · by_cases folds : r.Older g ∧ r.path.covers g.path = true
      · obtain ⟨older, covers⟩ := folds
        obtain ⟨below, split⟩ := Path.covers_iff.1 covers
        rw [handDown_eq older split] at here
        cases below with
        | nil =>
          rw [putBelow_root] at here
          exact Or.inr ⟨g, List.mem_cons_self, older, by simpa using split, here⟩
        | cons key below =>
          cases finish : r.finish with
          | none => exact Or.inl rfl
          | some t => simp [finish, putBelow_some] at here
      · rcases not_and_or.1 folds with newer | apart
        · rw [handDown_of_not_older newer] at here
          exact Or.inl here
        · rw [handDown_of_not_covers (by simpa using apart)] at here
          exact Or.inl here
    · rw [older_handDown_iff] at older
      rw [handDown_path] at path
      exact Or.inr ⟨x, List.mem_cons_of_mem g hx, older, path, nothing⟩

/-! ## Interruptions -/

/-- An interruption takes out, and folds, only what lies on its path. -/
structure Cuts (rs : List Transition) (p : Path) (keep : Transition → Bool)
    (gone : List Transition) : Prop where
  cut : ∀ r ∈ rs, keep r = false → r.path = p
  gone : ∀ g ∈ gone, g ∈ rs ∧ g.path = p

variable {keep : Transition → Bool} {gone : List Transition} {p x : Path}

/-- An interruption keeps what covers a place off its path. -/
theorem Cuts.mem_kept (cuts : Cuts rs p keep gone) {y : Transition} (hy : y ∈ rs)
    (covers : y.path.covers x = true) (apart : p.covers x = false) : y ∈ rs.filter keep := by
  refine List.mem_filter.2 ⟨hy, ?_⟩
  by_contra cut
  rw [cuts.cut y hy (by simpa using cut), apart] at covers
  cases covers

theorem Cuts.outcome_kept (cuts : Cuts rs p keep gone) (apart : p.covers x = false) :
    outcome (rs.filter keep) x = outcome rs x := by
  apply outcome_filter
  intro r hr cut
  rwa [cuts.cut r hr cut]

theorem NoneCovers.map_handAllDown (free : NoneCovers rs x) (gone : List Transition) :
    NoneCovers (rs.map (handAllDown gone)) x := by
  intro y hy
  obtain ⟨r, hr, rfl⟩ := List.mem_map.1 hy
  rw [handAllDown_path]
  exact free r hr

/-- What a transition shows is not moved by what is folded into it: had a removal moved it, what
stands there in the state would be newer. -/
theorem Carries.not_displaced_of_newest (h : Carries rs state) (cuts : Cuts rs p keep gone)
    {before behind : List Transition} {r g : Transition}
    (split : rs.filter keep = before ++ r :: behind) (hg : g ∈ gone) (older : r.Older g)
    (removal : g.finish = none) {below a : Path} (atPath : p = r.path ++ below)
    (free : NoneCovers behind (r.path ++ a)) : ¬ Displaced r.finish below a := by
  rintro ⟨stem, o, item, under, isList, present⟩
  obtain ⟨member, path⟩ := cuts.gone g hg
  have itemR : Behind (r.path ++ stem) g.path (r.path ++ o) := by
    rw [path, atPath]
    exact item.append r.path
  obtain ⟨rest, rfl⟩ := Path.covers_iff.1 under
  rw [← List.append_assoc] at free
  have freeO : NoneCovers behind (r.path ++ o) := free.above (Path.covers_append ..)
  have freeStem := freeO.above itemR.covers_stem.2
  have apartO : p.covers (r.path ++ o) = false := path ▸ itemR.apart (Path.covers_self _)
  have apartStem := Path.not_covers_above apartO itemR.covers_stem.2
  -- the state has the same list with the same item in it
  rw [← outcome_of_newest before freeStem, ← split, cuts.outcome_kept apartStem, h.leads] at isList
  rw [← outcome_of_newest before freeO, ← split, cuts.outcome_kept apartO, h.leads] at present
  obtain ⟨y, hy, newer, covers⟩ := h.behind g member removal _ _ itemR isList present
  have kept := cuts.mem_kept hy covers apartO
  have ordered := h.ordered.filter keep
  rw [split] at kept ordered
  have later := newer_of_mem_split ordered kept (older.trans newer)
  rw [freeO y later] at covers
  cases covers

/-- An interruption changes no outcome off its path. -/
theorem Carries.outcome_interrupted (h : Carries rs state) (cuts : Cuts rs p keep gone)
    (apart : p.covers x = false) :
    outcome ((rs.filter keep).map (handAllDown gone)) x = outcome rs x := by
  rw [← cuts.outcome_kept apart]
  by_cases free : NoneCovers (rs.filter keep) x
  · rw [outcome_of_noneCovers free, outcome_of_noneCovers (free.map_handAllDown gone)]
  · obtain ⟨before, r, behind, q, split, rfl, freeBehind⟩ := exists_newest free
    have folded := outcome_of_newest (r := handAllDown gone r) (q := q)
      (before.map (handAllDown gone)) (by simpa using freeBehind.map_handAllDown gone)
    rw [handAllDown_path] at folded
    rw [split, List.map_append, List.map_cons, folded, outcome_of_newest before freeBehind]
    -- the places that `r` shows: nothing newer covers them
    refine faceAt_handAllDown
      (V := fun a => p.covers (r.path ++ a) = false ∧ NoneCovers behind (r.path ++ a))
      (fun g hg => (cuts.gone g hg).2) ?_ (fun a ha => ha.1) ?_ q ⟨apart, freeBehind⟩
    · rintro a b ⟨apartAB, freeAB⟩
      have higher : Path.covers (r.path ++ a) (r.path ++ (a ++ b)) = true := by
        rw [← List.append_assoc]
        exact Path.covers_append ..
      exact ⟨Path.not_covers_above apartAB higher, freeAB.above higher⟩
    · rintro g hg older removal below atPath a ⟨-, freeA⟩
      exact h.not_displaced_of_newest cuts split hg older removal atPath freeA

/-- What an interruption makes a removal, something was already. -/
theorem Cuts.exists_removal (cuts : Cuts rs p keep gone) {g : Transition} (hg : g ∈ rs)
    (removal : (handAllDown gone g).finish = none) :
    ∃ x ∈ rs, x.finish = none ∧ x.path = g.path ∧ (g.path = p ∨ x = g) ∧
      ∀ y, x.Older y → g.Older y := by
  rcases finish_handAllDown_eq_none removal with same | ⟨x, hx, older, path, nothing⟩
  · exact ⟨g, hg, same, rfl, Or.inr rfl, fun y newer => newer⟩
  · obtain ⟨member, atPath⟩ := cuts.gone x hx
    exact ⟨x, member, nothing, path, Or.inl (path.symm.trans atPath), fun y newer =>
      older.trans newer⟩

/-! ## Inserting a change -/

/-- What an insertion leaves: the transitions that are kept, with those that go folded into them,
and the new one. -/
def joined (rs : List Transition) (keep : Transition → Bool) (gone : List Transition)
    (r : Transition) : List Transition :=
  (rs.filter keep).map (handAllDown gone) ++ [r]

variable {r : Transition}

theorem mem_joined {y : Transition} :
    y ∈ joined rs keep gone r ↔ (∃ x ∈ rs.filter keep, y = handAllDown gone x) ∨ y = r := by
  rw [joined, List.mem_append, List.mem_map, List.mem_singleton]
  constructor
  · rintro (⟨x, hx, same⟩ | same)
    · exact Or.inl ⟨x, hx, same.symm⟩
    · exact Or.inr same
  · rintro (⟨x, hx, same⟩ | same)
    · exact Or.inl ⟨x, hx, same.symm⟩
    · exact Or.inr same

theorem joined_cons {b : Transition} (stays : keep b = true) :
    joined (b :: rs) keep gone r = handAllDown gone b :: joined rs keep gone r := by
  rw [joined, List.filter_cons_of_pos stays]
  rfl

/-- What covered a place before still does, off the path of the change. -/
theorem Cuts.exists_newer (cuts : Cuts rs p keep gone) {g y : Transition}
    (covered : ∃ z ∈ rs, y.Older z ∧ z.path.covers x = true) (imp : ∀ z, y.Older z → g.Older z)
    (apart : p.covers x = false) :
    ∃ z ∈ joined rs keep gone r, (handAllDown gone g).Older z ∧ z.path.covers x = true := by
  obtain ⟨z, hz, newer, covers⟩ := covered
  refine ⟨handAllDown gone z, ?_, ?_, ?_⟩
  · exact mem_joined.2 (Or.inl ⟨z, cuts.mem_kept hz covers apart, rfl⟩)
  · rw [older_handAllDown_left, older_handAllDown_right]
    exact imp z newer
  · rwa [handAllDown_path]

theorem Carries.ordered_joined (h : Carries rs state) (newest : ∀ y ∈ rs, y.Older r) :
    (joined rs keep gone r).Pairwise Older := by
  refine List.pairwise_append.2 ⟨?_, List.pairwise_singleton .., ?_⟩
  · refine List.pairwise_map.2 ((h.ordered.filter keep).imp ?_)
    intro a b older
    rwa [older_handAllDown_left, older_handAllDown_right]
  · intro a ha b hb
    obtain ⟨y, hy, rfl⟩ := List.mem_map.1 ha
    rw [List.mem_singleton.1 hb, older_handAllDown_left]
    exact newest y (List.mem_filter.1 hy).1

section Insert

variable {c : Change} {state' : Tree}

theorem Carries.regular_joined (h : Carries rs state) (regular : RegularSlot c.new)
    (cuts : Cuts rs c.path keep gone) (finish : r.finish = c.new) :
    ∀ y ∈ joined rs keep gone r, RegularSlot y.finish := by
  intro y hy
  rcases mem_joined.1 hy with ⟨x, hx, rfl⟩ | rfl
  · apply regular_handAllDown
    · intro g hg
      exact h.regular g (cuts.gone g hg).1
    · exact h.regular x (List.mem_filter.1 hx).1
  · rw [finish]
    exact regular

theorem Carries.leads_joined (h : Carries rs state) (step : Step state c state')
    (cuts : Cuts rs c.path keep gone) (path : r.path = c.path) (finish : r.finish = c.new)
    (x : Path) : outcome (joined rs keep gone r) x = faceAt (some state') x := by
  by_cases covers : c.path.covers x = true
  · obtain ⟨q, rfl⟩ := Path.covers_iff.1 covers
    rw [step.faceAt_under h.stateRegular, ← path, joined, outcome_snoc, Path.below?_append, finish]
  · rw [Bool.not_eq_true] at covers
    rw [step.faceAt_off covers, joined, outcome_snoc_of_apart (path ▸ covers),
      h.outcome_interrupted cuts covers, h.leads]

theorem Carries.behind_joined (h : Carries rs state) (step : Step state c state')
    (cuts : Cuts rs c.path keep gone) (path : r.path = c.path) (finish : r.finish = c.new)
    (newest : ∀ y ∈ rs, y.Older r) {y : Transition} (hy : y ∈ joined rs keep gone r)
    (removal : y.finish = none) {stem q : Path} (item : Behind stem y.path q)
    (isList : faceAt (some state') stem = some (.list []))
    (present : (faceAt (some state') q).isSome = true) :
    ∃ z ∈ joined rs keep gone r, y.Older z ∧ z.path.covers q = true := by
  by_cases covers : c.path.covers q = true
  · rcases mem_joined.1 hy with ⟨x, hx, rfl⟩ | rfl
    · refine ⟨r, mem_joined.2 (Or.inr rfl), ?_, path ▸ covers⟩
      rw [older_handAllDown_left]
      exact newest x (List.mem_filter.1 hx).1
    · -- the item that the change itself takes out is apart from those behind it
      rw [path] at item
      rw [item.apart (Path.covers_self q)] at covers
      cases covers
  · rw [Bool.not_eq_true] at covers
    rw [step.faceAt_off (Path.not_covers_above covers item.covers_stem.2)] at isList
    rw [step.faceAt_off covers] at present
    rcases mem_joined.1 hy with ⟨x, hx, rfl⟩ | rfl
    · obtain ⟨g, hg, nothing, samePath, -, imp⟩ :=
        cuts.exists_removal (List.mem_filter.1 hx).1 removal
      rw [handAllDown_path, ← samePath] at item
      exact cuts.exists_newer (h.behind g hg nothing stem q item isList present) imp covers
    · -- the change takes out the last item, so nothing stands behind it
      rw [finish] at removal
      rw [path] at item
      rw [step.noneBehind removal stem q item isList] at present
      cases present

theorem Carries.place_joined (h : Carries rs state) (step : Step state c state')
    (cuts : Cuts rs c.path keep gone) (path : r.path = c.path) (newest : ∀ y ∈ rs, y.Older r)
    {y z : Transition} (hy : y ∈ joined rs keep gone r) (removal : y.finish = none)
    (hz : z ∈ joined rs keep gone r) (newer : y.Older z) {stem : Path}
    (item : Behind stem y.path z.path) (isList : faceAt (some state') stem = some (.list [])) :
    ∃ z ∈ joined rs keep gone r, y.Older z ∧ z.path.covers y.path = true := by
  rcases mem_joined.1 hy with ⟨g, hg, rfl⟩ | rfl
  · obtain ⟨member, -⟩ := List.mem_filter.1 hg
    rw [handAllDown_path] at item ⊢
    by_cases covers : c.path.covers g.path = true
    · refine ⟨r, mem_joined.2 (Or.inr rfl), ?_, path ▸ covers⟩
      rw [older_handAllDown_left]
      exact newest g member
    · rw [Bool.not_eq_true] at covers
      rw [step.faceAt_off (Path.not_covers_above covers item.covers_stem.1)] at isList
      obtain ⟨g', hg', nothing, samePath, sameOr, imp⟩ := cuts.exists_removal member removal
      -- off the path of the change nothing is folded, so the removal is the same one
      obtain rfl : g' = g := by
        rcases sameOr with atChange | same
        · rw [atChange, Path.covers_self] at covers
          cases covers
        · exact same
      rcases mem_joined.1 hz with ⟨x, hx, rfl⟩ | rfl
      · rw [older_handAllDown_left, older_handAllDown_right] at newer
        rw [handAllDown_path] at item
        have before := h.place g' hg' nothing x (List.mem_filter.1 hx).1 newer stem item isList
        exact cuts.exists_newer before imp covers
      · rw [path] at item
        have present := step.isSome_before h.stateRegular item isList
        exact cuts.exists_newer (h.covered_of_present hg' nothing present) imp covers
  · rcases mem_joined.1 hz with ⟨x, hx, rfl⟩ | rfl
    · rw [older_handAllDown_right] at newer
      exact absurd newer (newest x (List.mem_filter.1 hx).1).asymm
    · exact absurd newer (Older.irrefl z)

/-- A change that is made of the state is carried by the newest transition. -/
theorem Carries.insert (h : Carries rs state) (step : Step state c state')
    (regular : RegularSlot c.new) (cuts : Cuts rs c.path keep gone) (path : r.path = c.path)
    (finish : r.finish = c.new) (newest : ∀ y ∈ rs, y.Older r) :
    Carries (joined rs keep gone r) state' where
  ordered := h.ordered_joined newest
  regular := h.regular_joined regular cuts finish
  stateRegular := regular_hereditary.put h.stateRegular regular step.made
  leads := h.leads_joined step cuts path finish
  behind := by
    intro y hy removal stem q item isList present
    exact h.behind_joined step cuts path finish newest hy removal item isList present
  place := by
    intro y hy removal z hz newer stem item isList
    exact h.place_joined step cuts path newest hy removal hz newer item isList

/-- Where nothing is cut short the change comes last and the others stay. -/
theorem Carries.snoc (h : Carries rs state) (step : Step state c state')
    (regular : RegularSlot c.new) (path : r.path = c.path) (finish : r.finish = c.new)
    (newest : ∀ y ∈ rs, y.Older r) : Carries (rs ++ [r]) state' := by
  have cuts : Cuts rs c.path (fun _ => true) [] :=
    ⟨fun r _ cut => absurd cut (by decide), List.forall_mem_nil _⟩
  have same : joined rs (fun _ => true) [] r = rs ++ [r] := by
    rw [joined, List.filter_eq_self.2 fun _ _ => rfl]
    exact congrArg (· ++ [r]) (List.map_id' rs)
  rw [← same]
  exact h.insert step regular cuts path finish newest

end Insert

end Schedule

end TableMotion
