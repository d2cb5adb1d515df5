import TableMotion.Proofs.Bearing
import TableMotion.Proofs.Crossing
import TableMotion.Proofs.Querying
import TableMotion.Table

/-!
# Querying one path of a finished crossing

Once a crossing is over its frame is the new tree, but the node at a single path is drawn from the
transitions that bear on that path alone. If they all lie under a node that both trees have, they
carry it (`Carries.toward`); if one takes in the whole path, it is written into the old tree with
nothing else (`root_ofTransitions_pair`). So the query finds what the new tree holds unless the path
strays (`valueAt_crossing_iff`).
-/

namespace TableMotion

namespace Tree

/-- A node can be replaced where one is. -/
theorem exists_put_of_get? {t s : Tree} {p : Path} (there : t.get? p = some s) (value : Tree) :
    ∃ u, t.put p (some value) = .ok u ∧ u.get? p = some value := by
  obtain ⟨u, made⟩ := exists_write_of_get? there value
  exact ⟨u, put_some_ok.2 made, get?_write_self made⟩

/-- What is kept by the nodes under a key is kept by the nodes at a path. -/
theorem Hereditary.node {P : Tree → Prop} (keeps : Hereditary P) {t c : Tree} {p : Path} (h : P t)
    (found : t.get? p = some c) : P c := by
  induction p generalizing t with
  | nil =>
    cases found
    exact h
  | cons key p ih =>
    rw [get?_cons] at found
    obtain ⟨s, here, below⟩ := Option.bind_eq_some_iff.1 found
    exact ih (keeps.child h here) below

end Tree

namespace Transition

/-- The change that a transition makes. -/
def change (r : Transition) : Change := ⟨r.path, r.start, r.finish⟩

theorem Runs.change_eq {onset span : Binary64} {c : Change} {r : Transition}
    (run : Runs onset span c r) : r.change = c := by
  rw [change, run.path, run.start, run.finish]

end Transition

namespace Schedule

open TableMotion.Tree Transition TableMotion.Frame

variable {old new state : Tree} {onset span time : Binary64} {p : Path}

/-! ## Transitions under a path -/

theorem bearsOn_of_covers {r : Transition} {x : Path} (under : p.covers x = true)
    (covers : r.path.covers x = true) : bearsOn p r = true :=
  bearsOn_iff.2 (Path.covers_or_covers covers under)

/-- What stands apart from something above a path does not bear on the path. -/
theorem not_bearsOn_of_apart {r : Transition} {q : Path} (covers : q.covers p = true)
    (apart : Path.Apart r.path q) : ¬ bearsOn p r = true := by
  intro bears
  rcases bearsOn_iff.1 bears with above | under
  · rcases Path.covers_or_covers above covers with overQ | underQ
    · rw [apart.1] at overQ
      cases overQ
    · rw [apart.2] at underQ
      cases underQ
  · have underQ := Path.covers_trans covers under
    rw [apart.2] at underQ
    cases underQ

section Toward

variable {b : Transition} {rs : List Transition} {u : Tree}

/-- The transitions that bear on a path lie under it, and none of them takes away what is there. -/
def AllUnder (p : Path) (rs : List Transition) : Prop :=
  ∀ r ∈ rs.filter (bearsOn p), p.covers r.path = true ∧ (r.path = p → r.finish ≠ none)

/-- What they take out of a list, they take out of a list under the path. -/
theorem AllUnder.covers_stem (h : AllUnder p rs) {g : Transition}
    (hg : g ∈ rs.filter (bearsOn p)) (removal : g.finish = none) {stem x : Path}
    (item : Behind stem g.path x) : p.covers stem = true := by
  obtain ⟨key, other, i, j, path, -⟩ := item
  obtain ⟨covers, stays⟩ := h g hg
  rw [path] at covers
  rcases Path.covers_concat covers with above | itself
  · exact above
  · exact absurd removal (stays (path.trans itself.symm))

/-- What bears on a path, if it lies under it, carries a state in which the node at the path is
the one that all transitions come to and everything else is as it was at first. -/
theorem Carries.toward (h : Carries (b :: rs) new) (atRoot : b.path = Path.root)
    (first : b.finish = some old) (there : new.get? p = some u)
    (put : old.put p (some u) = .ok state) (under : AllUnder p rs) :
    Carries (b :: rs.filter (bearsOn p)) state := by
  have base : bearsOn p b = true := bearsOn_iff.2 (Or.inl (by rw [atRoot]; rfl))
  have kept : ∀ {y}, y ∈ b :: rs.filter (bearsOn p) ↔ y ∈ b :: rs ∧ bearsOn p y = true := by
    intro y
    rw [← List.filter_cons_of_pos base, List.mem_filter]
  have sameUnder : ∀ q, faceAt (some state) (p ++ q) = faceAt (some new) (p ++ q) := by
    intro q
    have atPath : (some new).bind (·.get? p) = some u := there
    rw [faceAt_write_under (put_some_ok.1 put), faceAt_append (some new), atPath]
  have removalUnder : ∀ g ∈ b :: rs.filter (bearsOn p), g.finish = none →
      ∀ {stem x}, Behind stem g.path x → p.covers stem = true := by
    intro g hg removal stem x item
    rcases List.mem_cons.1 hg with rfl | hg
    · rw [first] at removal
      cases removal
    · exact under.covers_stem hg removal item
  exact {
    ordered := by
      rw [← List.filter_cons_of_pos base]
      exact h.ordered.filter _
    regular := fun r hr => h.regular r (kept.1 hr).1
    stateRegular := by
      have regularOld := slot_some.1 (first ▸ h.regular b List.mem_cons_self)
      have regularNode := slot_some.2 (regular_hereditary.node h.stateRegular there)
      exact regular_hereditary.put regularOld regularNode put
    leads := by
      intro x
      by_cases covers : p.covers x = true
      · obtain ⟨q, rfl⟩ := Path.covers_iff.1 covers
        rw [sameUnder, ← h.leads, ← List.filter_cons_of_pos base]
        apply outcome_filter
        intro r _ beside
        rw [← Bool.not_eq_true]
        intro above
        rw [bearsOn_of_covers covers above] at beside
        cases beside
      · -- off the path only the first state is left
        rw [Bool.not_eq_true] at covers
        have free : NoneCovers (rs.filter (bearsOn p)) x := by
          intro r hr
          rw [← Bool.not_eq_true]
          intro above
          rw [Path.covers_trans (under r hr).1 above] at covers
          cases covers
        have alone := outcome_append_of_noneCovers free [b]
        have whole := outcome_of_newest (r := b) (q := x) [] (List.forall_mem_nil _)
        rw [atRoot] at whole
        rw [faceAt_write_off (put_some_ok.1 put) covers, ← first]
        exact alone.trans whole
    behind := by
      intro g hg removal stem x item isList present
      obtain ⟨q, rfl⟩ := Path.covers_iff.1 (removalUnder g hg removal item)
      obtain ⟨rest, rfl⟩ := Path.covers_iff.1 item.covers_stem.2
      rw [sameUnder] at isList
      rw [List.append_assoc, sameUnder, ← List.append_assoc] at present
      obtain ⟨y, hy, newer, covers⟩ := h.behind g (kept.1 hg).1 removal _ _ item isList present
      have underItem : p.covers (p ++ q ++ rest) = true := by
        rw [List.append_assoc]
        exact Path.covers_append ..
      exact ⟨y, kept.2 ⟨hy, bearsOn_of_covers underItem covers⟩, newer, covers⟩
    place := by
      intro g hg removal x hx newer stem item isList
      have above := removalUnder g hg removal item
      obtain ⟨q, rfl⟩ := Path.covers_iff.1 above
      rw [sameUnder] at isList
      obtain ⟨y, hy, newerY, covers⟩ :=
        h.place g (kept.1 hg).1 removal x (kept.1 hx).1 newer _ item isList
      have underRemoval := Path.covers_trans above item.covers_stem.1
      exact ⟨y, kept.2 ⟨hy, bearsOn_of_covers underRemoval covers⟩, newerY, covers⟩ }

end Toward

/-! ## Little beside the first state -/

/-- A first state that is newer than all else that has started is the frame. -/
theorem root_ofTransitions_of_newest_base {b : Transition} {rs : List Transition} (base : IsBase b)
    (first : b.start = some old) (startedBase : b.startTime ≤ time)
    (started : ∀ r ∈ rs, r.startTime ≤ time) (older : ∀ r ∈ rs, r.Older b) :
    (ofTransitions (b :: rs) time).root = some old := by
  have alone : shown time (b :: rs) = [b] := by
    apply shown_of_first base.atRoot
    · intro r hr
      exact (prevailsAt_iff_of_started (started r hr)).2 ⟨startedBase, older r hr⟩
    · intro r hr
      rw [← Bool.not_eq_true, prevailsAt_iff_of_started startedBase]
      exact fun prevails => (older r hr).asymm prevails.2
  rw [root_ofTransitions, alone]
  exact (lands_base base first).2

/-- The frame of a first state and one newer transition is a single write. -/
theorem root_ofTransitions_pair {b r : Transition} (base : IsBase b) (first : b.start = some old)
    (startedBase : b.startTime ≤ time) (started : r.startTime ≤ time) (newer : b.Older r)
    (value : r.valueAt time = r.finish) :
    (ofTransitions [b, r] time).root = putBelow (some old) r.path r.finish := by
  have loses : b.prevailsAt r time = false := by
    rw [← Bool.not_eq_true, prevailsAt_iff_of_started started]
    exact fun prevails => newer.asymm prevails.2
  have wins : r.prevailsAt b time = true :=
    (prevailsAt_iff_of_started startedBase).2 ⟨started, newer⟩
  have write : isWrite time b = true := by simp [isWrite, base.atRoot]
  have whole : b.valueAt time = some old := by rw [valueAt_of_eq base.same, ← base.same, first]
  cases path : r.path with
  | nil =>
    have alone : shown time [b, r] = [r] := by
      simp [shown, winners, addWinner, isHidden, path, base.atRoot, wins, Path.root, Path.compare,
        Path.isAbove]
    have atRoot : isWrite time r = true := by simp [isWrite, path, Path.root]
    rw [root_ofTransitions, alone, putBelow_root]
    simp [inWriteOrder, atRoot, writeAll, path, value]
  | cons key q =>
    have both : shown time [b, r] = [b, r] := by
      simp [shown, winners, addWinner, isHidden, path, base.atRoot, loses, Path.root, Path.compare,
        Path.isAbove]
    have inOrder : inWriteOrder time [b, r] = [b, r] := by
      cases h : isWrite time r <;> simp [inWriteOrder, write, h]
    have fresh : putBelow none Path.root (some old) = some old := putBelow_root ..
    rw [root_ofTransitions, both, inOrder, writeAll_cons, writeAll_cons, writeAll_nil, whole,
      base.atRoot, fresh, value, path]

/-! ## The transitions of a crossing -/

/-- A first tree, and after it one transition for each change. -/
structure Row (old : Tree) (onset span : Binary64) (cs : List Change) (b : Transition)
    (rs : List Transition) : Prop where
  base : IsBase b
  first : b.start = some old
  changes : rs.map change = cs
  runs : ∀ r ∈ rs, Runs onset span r.change r

section Row

variable {b : Transition} {rs : List Transition} {cs : List Change}

theorem row_startWith {s : Schedule} (nothing : s.transitions = []) (old : Tree)
    (onset span : Binary64) (source : Option Nat) :
    ∃ b, (s.startWith old source).transitions = [b] ∧ Row old onset span [] b [] :=
  ⟨_, startWith_transitions nothing old source, ⟨rfl, decide_eq_true rfl, rfl, rfl⟩, rfl, rfl,
    List.forall_mem_nil _⟩

theorem Row.insertAll {s : Schedule} {ds : List Change} (row : Row old onset span cs b rs)
    (split : s.transitions = b :: rs) (apart : ApartChanges (cs ++ ds)) (forward : 0 ≤ span)
    (source : Option Nat) :
    ∃ more, (ds.foldl (fun s c => s.insert c onset (Timing.fixed span c) source) s).transitions =
      b :: more ∧ Row old onset span (cs ++ ds) b more := by
  induction ds generalizing s cs rs with
  | nil => exact ⟨rs, split, by rwa [List.append_nil]⟩
  | cons c ds ih =>
    have free : ∀ r ∈ s.transitions, r.isEndless = true ∨ r.path ≠ c.path := by
      intro r hr
      rw [split] at hr
      rcases List.mem_cons.1 hr with rfl | hr
      · exact Or.inl row.base.endless
      · have member : r.change ∈ cs := row.changes ▸ List.mem_map_of_mem hr
        exact Or.inr ((List.pairwise_append.1 apart).2.2 _ member c List.mem_cons_self).ne
    have run := runs_opened onset forward free source
    have inserted := transitions_insert_of_free onset span free source
    rw [split, List.cons_append] at inserted
    rw [List.append_cons] at apart ⊢
    refine ih ⟨row.base, row.first, ?_, fun r hr => ?_⟩ inserted apart
    · rw [List.map_append, row.changes, List.map_singleton, run.change_eq]
    · rcases List.mem_append.1 hr with hr | hr
      · exact row.runs r hr
      · rw [List.mem_singleton.1 hr, run.change_eq]
        exact run

theorem row_crossing (hold : old.Regular) (hnew : new.Regular) (onset : Binary64)
    (forward : 0 ≤ span) (source : Option Nat) :
    ∃ b rs, (crossing old new onset span source).transitions = b :: rs ∧
      Row old onset span (changes old new) b rs := by
  have apart := apart_changes old new hold.wellFormed hnew.wellFormed
  obtain ⟨b, start, row⟩ := row_startWith (s := empty) rfl old onset span source
  obtain ⟨rs, split, row⟩ := row.insertAll start apart forward source
  exact ⟨b, rs, split, row⟩

theorem Row.started (row : Row old onset span cs b rs) (begun : 0 ≤ onset) (le : onset ≤ time) :
    ∀ r ∈ b :: rs, r.startTime ≤ time := by
  intro r hr
  rcases List.mem_cons.1 hr with rfl | hr
  · rw [row.base.start]
    exact Binary64.le_trans begun le
  · rwa [(row.runs r hr).startTime]

theorem Row.values (row : Row old onset span cs b rs) (lasts : onset ≤ onset + span)
    (ended : onset + span < time) : ∀ r ∈ b :: rs, r.valueAt time = r.finish := by
  intro r hr
  rcases List.mem_cons.1 hr with rfl | hr
  · exact valueAt_of_eq row.base.same time
  · have run := row.runs r hr
    apply valueAt_of_over
    · rwa [run.startTime, run.endTime]
    · rwa [run.endTime]

/-- The one change that takes in a path is the only one that bears on it. -/
theorem Row.filter_bearsOn (row : Row old onset span cs b rs) (apart : ApartChanges cs)
    {c : Change} (member : c ∈ cs) (covers : c.path.covers p = true) :
    ∃ r, rs.filter (bearsOn p) = [r] ∧ r ∈ rs ∧ r.change = c := by
  rw [← row.changes] at member
  obtain ⟨r, hr, rfl⟩ := List.mem_map.1 member
  obtain ⟨before, behind, rfl⟩ := List.append_of_mem hr
  rw [← row.changes, List.map_append, List.map_cons] at apart
  obtain ⟨-, after, across⟩ := List.pairwise_append.1 apart
  have noneBefore : before.filter (bearsOn p) = [] := List.filter_eq_nil_iff.2 fun x hx =>
    not_bearsOn_of_apart covers (across _ (List.mem_map_of_mem hx) _ List.mem_cons_self)
  have noneBehind : behind.filter (bearsOn p) = [] := List.filter_eq_nil_iff.2 fun x hx =>
    not_bearsOn_of_apart covers (List.rel_of_pairwise_cons after (List.mem_map_of_mem hx)).symm
  refine ⟨r, ?_, hr, rfl⟩
  rw [List.filter_append, noneBefore, List.nil_append,
    List.filter_cons_of_pos (bearsOn_iff.2 (Or.inl covers)), noneBehind]

end Row

/-! ## Queries -/

theorem valueAt_of_base {s : Schedule} {b : Transition} {rs : List Transition}
    (split : s.transitions = b :: rs) (atRoot : b.path = Path.root) :
    s.valueAt p time =
      (ofTransitions (b :: rs.filter (bearsOn p)) time).root.bind (·.get? p) := by
  have base : bearsOn p b = true := bearsOn_iff.2 (Or.inl (by rw [atRoot]; rfl))
  rw [valueAt, split, List.filter_cons_of_pos base, Frame.get?]

/-- A crossing that starts at the negative zero stays behind its first tree, which starts at
zero. -/
theorem valueAt_crossing_negative_zero (hold : old.Regular) (hnew : new.Regular)
    (forward : 0 ≤ span) (le : 0 ≤ time) (p : Path) (source : Option Nat) :
    (crossing old new (Binary64.zero true) span source).valueAt p time = old.get? p := by
  obtain ⟨b, rs, split, row⟩ := row_crossing hold hnew (Binary64.zero true) forward source
  have startZero : (0 : Binary64) ≤ Binary64.zero true := by decide +kernel
  have zeroStart : Binary64.zero true ≤ (0 : Binary64) := by decide +kernel
  have started := row.started startZero (Binary64.le_trans zeroStart le)
  have older : ∀ r ∈ rs, r.Older b := by
    intro r hr
    rw [older_iff, (row.runs r hr).startTime, row.base.start]
    exact Or.inl (by decide +kernel)
  rw [valueAt_of_base split row.base.atRoot,
    root_ofTransitions_of_newest_base row.base row.first (started b List.mem_cons_self)
      (fun r hr => started r (List.mem_cons_of_mem b (List.mem_filter.1 hr).1))
      fun r hr => older r (List.mem_filter.1 hr).1]
  rfl

/-- A crossing that is over shows at a path what the second tree holds there, unless the path
strays. -/
theorem valueAt_crossing_of_over (hold : old.Regular) (hnew : new.Regular)
    (isSpan : IsSpan onset span) (ended : onset + span < time) (p : Path) (source : Option Nat) :
    (crossing old new onset span source).valueAt p time = new.get? p ↔ ¬ Strays old new p := by
  have crosses := crosses_crossing hold hnew isSpan source
  obtain ⟨b, rs, split, row⟩ := row_crossing hold hnew onset isSpan.forward source
  have begun : 0 ≤ onset := Binary64.le_of_totalRank_le rfl
    (Binary64.isNaN_eq_false_of_isFinite isSpan.finite) isSpan.begun
  have lasts := Binary64.le_add_of_nonneg isSpan.finite isSpan.bounded isSpan.forward
  have started := row.started begun (Binary64.le_trans lasts (Binary64.le_of_lt ended))
  have values := row.values lasts ended
  have carries := crosses.carries
  have distinct := crosses.sound.distinct
  rw [split] at carries distinct
  have finish : b.finish = some old := row.base.same ▸ row.first
  rw [valueAt_of_base split row.base.atRoot]
  cases bearing p hold hnew with
  | apart beside same straight =>
    have nothing : rs.filter (bearsOn p) = [] := List.filter_eq_nil_iff.2 fun r hr bears =>
      beside r.change (row.changes ▸ List.mem_map_of_mem hr) (bearsOn_iff.1 bears)
    rw [nothing, root_ofTransitions_of_newest_base row.base row.first
      (started b List.mem_cons_self) (List.forall_mem_nil _) (List.forall_mem_nil _)]
    exact iff_of_true same straight
  | @above c member covers t put shows =>
    have apart := apart_changes old new hold.wellFormed hnew.wellFormed
    obtain ⟨r, alone, hr, rfl⟩ := row.filter_bearsOn apart member covers
    have root := root_ofTransitions_pair row.base row.first (started b List.mem_cons_self)
      (started r (List.mem_cons_of_mem b hr)) (List.rel_of_pairwise_cons carries.ordered hr)
      (values r (List.mem_cons_of_mem b hr))
    rw [alone, root, show putBelow (some old) r.path r.finish = some t from put]
    exact shows
  | @below s u before after under straight =>
    have allUnder : AllUnder p rs := by
      intro r hr
      obtain ⟨member, bears⟩ := List.mem_filter.1 hr
      exact under r.change (row.changes ▸ List.mem_map_of_mem member) (bearsOn_iff.1 bears)
    obtain ⟨state, put, holds⟩ := exists_put_of_get? before u
    have toward := carries.toward row.base.atRoot finish after put allUnder
    have kept : ∀ {r}, r ∈ b :: rs.filter (bearsOn p) → r ∈ b :: rs := by
      intro r hr
      exact (List.filter_sublist.cons_cons b).subset hr
    have root := root_ofTransitions_of_carries toward
      (distinct.sublist (List.filter_sublist.cons_cons b))
      ⟨b, List.mem_cons_self, row.base.atRoot⟩ (fun r hr => started r (kept hr))
      (fun r hr => values r (kept hr))
    rw [root, after]
    exact iff_of_true holds straight

/-- A query of one path, once a table has gone from one tree to another, finds what the second tree
holds there unless the path strays; and where the start is the negative zero, which comes before the
zero at which the first tree starts, the query finds what the first tree holds. -/
theorem valueAt_crossing_iff {old new : Tree} (hold : old.Regular) (hnew : new.Regular)
    {onset span time : Binary64} (begun : 0 ≤ onset) (bounded : span.isFinite = true)
    (forward : 0 ≤ span) (ended : onset + span < time) (p : Path) (source : Option Nat) :
    ((crossing old new onset span source).valueAt p time = new.get? p ↔
        if onset = Binary64.zero true then old.get? p = new.get? p else ¬ Strays old new p) ∧
      ∀ t : Table, t.schedule = crossing old new onset span source → t.now = time →
        t.drawn? (some p) = (crossing old new onset span source).valueAt p time := by
  have finite := Binary64.isFinite_of_add_lt begun bounded ended
  constructor
  · by_cases negative : onset = Binary64.zero true
    · subst negative
      have lasts := Binary64.le_add_of_nonneg finite bounded forward
      have le : 0 ≤ time :=
        Binary64.le_trans begun (Binary64.le_trans lasts (Binary64.le_of_lt ended))
      rw [if_pos rfl, valueAt_crossing_negative_zero hold hnew forward le p source]
    · rw [if_neg negative]
      have isSpan : IsSpan onset span :=
        ⟨Binary64.totalRank_le_of_le begun negative, finite, bounded, forward⟩
      exact valueAt_crossing_of_over hold hnew isSpan ended p source
  · intro t scheduled now
    rw [Table.drawn?, scheduled, now]

/-- Two cards come to a board that shows one. The query finds the first of them, but not the second:
without the first the board cannot take it. -/
theorem valueAt_crossing_iff_board :
    let old : Tree := .map [("board", .list [.text "Ah"])]
    let new : Tree := .map [("board", .list [.text "Ah", .text "Qh", .text "Jd"])]
    let s := crossing old new 10 100 none
    s.valueAt ["board", "1"] 200 = new.get? ["board", "1"] ∧
      s.valueAt ["board", "2"] 200 ≠ new.get? ["board", "2"] ∧
      new.get? ["board", "2"] = some (.text "Jd") ∧ s.valueAt ["board", "2"] 200 = none := by
  intro old new s
  have hold : old.Regular := by decide +kernel
  have hnew : new.Regular := by decide +kernel
  have begun : (0 : Binary64) ≤ 10 := by decide +kernel
  have bounded : (100 : Binary64).isFinite = true := by decide +kernel
  have forward : (0 : Binary64) ≤ 100 := by decide +kernel
  have ended : (10 : Binary64) + 100 < 200 := by decide +kernel
  have positive : (10 : Binary64) ≠ Binary64.zero true := by decide +kernel
  have first := (valueAt_crossing_iff hold hnew begun bounded forward ended ["board", "1"] none).1
  have second := (valueAt_crossing_iff hold hnew begun bounded forward ended ["board", "2"] none).1
  rw [if_neg positive] at first second
  have straight : ¬ Strays old new ["board", "1"] := by
    intro strays
    have same : old.face = new.face := rfl
    have inside : Strays (.list [.text "Ah"]) (.list [.text "Ah", .text "Qh", .text "Jd"]) ["1"] :=
      (strays_cons_iff same rfl rfl).1 strays
    have named : Path.index? "1" = some 1 := by decide +kernel
    rcases (strays_list_iff named (Or.inl (by decide))).1 inside with ⟨past, -⟩ | ⟨gone, -⟩
    · exact absurd past (by decide)
    · exact absurd gone (by decide)
  have strays : Strays old new ["board", "2"] :=
    .inside rfl rfl rfl (.gap (i := 2) (by decide +kernel) (by decide) rfl)
  refine ⟨first.2 straight, fun same => second.1 same strays, ?_, ?_⟩
  · decide +kernel
  · decide +kernel

end Schedule

end TableMotion
