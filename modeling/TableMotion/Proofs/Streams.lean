import TableMotion.Proofs.States

/-!
# Two streams of updates

Updates of the game and updates of the tournament have versions of their own and write parts of the
state that do not meet. So a state is what each stream makes of it alone, put together
(`reviseAll_join`), and it does not matter where one stream stands between the updates of the other
(`reviseAll_interleaves`).
-/

namespace TableMotion

/-- `zs` takes the elements of two lists in turn, those of each list in their order. -/
inductive Interleaves {α : Type} : List α → List α → List α → Prop
  | nil : Interleaves [] [] []
  | left {x : α} {xs ys zs : List α} : Interleaves xs ys zs → Interleaves (x :: xs) ys (x :: zs)
  | right {y : α} {xs ys zs : List α} : Interleaves xs ys zs → Interleaves xs (y :: ys) (y :: zs)

/-- What tells two lists apart finds them in every interleaving. -/
theorem Interleaves.filter_eq {α : Type} {test : α → Bool} {xs ys zs : List α}
    (h : Interleaves xs ys zs) (fails : ∀ x ∈ xs, test x = false)
    (passes : ∀ y ∈ ys, test y = true) :
    zs.filter (fun z => !test z) = xs ∧ zs.filter test = ys := by
  induction h with
  | nil => exact ⟨rfl, rfl⟩
  | @left x xs ys zs _ ih =>
    have first := fails x List.mem_cons_self
    obtain ⟨inX, inY⟩ := ih (fun z hz => fails z (List.mem_cons_of_mem x hz)) passes
    simp [first, inX, inY]
  | @right y xs ys zs _ ih =>
    have first := passes y List.mem_cons_self
    obtain ⟨inX, inY⟩ := ih fails fun z hz => passes z (List.mem_cons_of_mem y hz)
    simp [first, inX, inY]

theorem Interleaves.mem {α : Type} {xs ys zs : List α} (h : Interleaves xs ys zs) {z : α}
    (hz : z ∈ zs) : z ∈ xs ∨ z ∈ ys := by
  induction h with
  | nil => cases hz
  | left _ ih => grind
  | right _ ih => grind

theorem interleaves_append {α : Type} (xs ys : List α) : Interleaves xs ys (xs ++ ys) := by
  induction xs with
  | nil =>
    induction ys with
    | nil => exact .nil
    | cons y ys ih => exact ih.right
  | cons x xs ih => exact ih.left

/-! ## Merging beside a key -/

namespace Dictionary

variable {α : Type}

theorem insert_insert_self (d : Dictionary α) (key : String) (a b : α) :
    insert key b (insert key a d) = insert key b d := by
  induction d with
  | nil => simp [insert]
  | cons e rest ih => grind [insert]

theorem insert_comm {d : Dictionary α} (h : Sorted d) {key other : String}
    (different : key ≠ other) (a b : α) :
    insert other b (insert key a d) = insert key a (insert other b d) :=
  h.assign_comm different (some a) (some b)

theorem find?_cons_eq_none {k : String} {v : α} {d : Dictionary α} {key : String} :
    find? ((k, v) :: d) key = none ↔ k ≠ key ∧ find? d key = none := by
  rw [find?_cons]
  split <;> simp [*]

end Dictionary

namespace Tree

theorem sorted_mergeFields {fields : Dictionary Tree} (h : Dictionary.Sorted fields)
    (patch : Dictionary Tree) : Dictionary.Sorted (mergeFields fields patch) := by
  induction patch generalizing fields with
  | nil => exact h
  | cons e rest ih => exact ih (h.insert e.1 _)

/-- A merge leaves a key alone that it does not bring. -/
theorem find?_mergeFields {patch : Dictionary Tree} {key : String}
    (absent : Dictionary.find? patch key = none) (fields : Dictionary Tree) :
    Dictionary.find? (mergeFields fields patch) key = Dictionary.find? fields key := by
  induction patch generalizing fields with
  | nil => rfl
  | cons e rest ih =>
    obtain ⟨different, absentRest⟩ := Dictionary.find?_cons_eq_none.1 absent
    rw [mergeFields, ih absentRest, Dictionary.find?_insert_of_ne _ _ different]

/-- What stands under a key that a merge does not bring can be put there before or after. -/
theorem mergeFields_insert {fields patch : Dictionary Tree} (h : Dictionary.Sorted fields)
    {key : String} (absent : Dictionary.find? patch key = none) (value : Tree) :
    mergeFields (Dictionary.insert key value fields) patch =
      Dictionary.insert key value (mergeFields fields patch) := by
  induction patch generalizing fields with
  | nil => rfl
  | cons e rest ih =>
    obtain ⟨different, absentRest⟩ := Dictionary.find?_cons_eq_none.1 absent
    rw [mergeFields, mergeFields, Dictionary.find?_insert_of_ne _ _ (Ne.symm different),
      Dictionary.insert_comm h (Ne.symm different)]
    exact ih (h.insert e.1 _) absentRest

/-- A map that a game can send: its keys stand in order, and the tournament is not among them. -/
def IsGameMap : Tree → Prop
  | .map fields =>
    Dictionary.Sorted fields ∧ Dictionary.find? fields Patch.tournamentKey = none
  | .null | .bool _ | .amount _ | .text _ | .list _ => False

instance : (t : Tree) → Decidable t.IsGameMap
  | .map fields => inferInstanceAs (Decidable
      (Dictionary.Sorted fields ∧ Dictionary.find? fields Patch.tournamentKey = none))
  | .null | .bool _ | .amount _ | .text _ | .list _ => isFalse id

theorem IsGameMap.exists_fields {t : Tree} (h : t.IsGameMap) : ∃ fields, t = .map fields ∧
    Dictionary.Sorted fields ∧ Dictionary.find? fields Patch.tournamentKey = none := by
  cases t with
  | map fields => exact ⟨fields, rfl, h⟩
  | null | bool | amount | text | list => exact h.elim

/-- What the updates of a game can lead to by themselves. -/
def IsGameTree (t : Tree) : Prop := t = .null ∨ t.IsGameMap

end Tree

/-! ## One update -/

namespace Patch

open TableMotion.Tree

/-- A snapshot of a game or a part of one. -/
def IsGame : Patch → Prop
  | .replace state => state.IsGameMap
  | .merge part => part.IsGameMap
  | .replaceAt _ _ | .tournament _ => False

instance : (patch : Patch) → Decidable patch.IsGame
  | .replace state => inferInstanceAs (Decidable state.IsGameMap)
  | .merge part => inferInstanceAs (Decidable part.IsGameMap)
  | .replaceAt _ _ | .tournament _ => isFalse id

theorem IsGame.isTournament {patch : Patch} (h : patch.IsGame) : patch.isTournament = false := by
  cases patch with
  | replace | merge | replaceAt => rfl
  | tournament => exact h.elim

/-- The state of a game with a tournament, if there is one. -/
def withTournament (state : Tree) : Option Tree → Tree
  | none => state
  | some t => (tournament t).applyTo state

theorem graft_map (fields : Dictionary Tree) (key : String) (value : Tree) :
    graft (.map fields) [key] value = .map (Dictionary.insert key value fields) := rfl

theorem applyTo_tournament_map (fields : Dictionary Tree) (t : Tree) :
    (tournament t).applyTo (.map fields) = .map (Dictionary.insert tournamentKey t fields) :=
  graft_map fields tournamentKey t

theorem exists_asMap (t : Tree) : ∃ fields, asMap t = .map fields := by
  cases t with
  | map fields => exact ⟨fields, rfl⟩
  | null | bool | amount | text | list => exact ⟨[], rfl⟩

theorem applyTo_tournament (state t : Tree) : ∃ fields, asMap state = .map fields ∧
    (tournament t).applyTo state = .map (Dictionary.insert tournamentKey t fields) := by
  obtain ⟨fields, isMap⟩ := exists_asMap state
  refine ⟨fields, isMap, ?_⟩
  rw [applyTo, isMap, graft_map]

/-- A tournament that was put into a state is there. -/
theorem get?_applyTo_tournament (state t : Tree) :
    ((tournament t).applyTo state).get? [tournamentKey] = some t := by
  obtain ⟨fields, -, made⟩ := applyTo_tournament state t
  simp [made, get?, child?]

/-- A tournament takes the place of the one before. -/
theorem applyTo_tournament_withTournament (state t : Tree) (held : Option Tree) :
    (tournament t).applyTo (withTournament state held) = withTournament state (some t) := by
  cases held with
  | none => rfl
  | some old =>
    obtain ⟨fields, isMap, before⟩ := applyTo_tournament state old
    rw [withTournament, withTournament, before, applyTo_tournament_map,
      Dictionary.insert_insert_self, applyTo, isMap, graft_map]

theorem keepTournament_of_absent {state : Tree} {fields : Dictionary Tree}
    (absent : state.get? [tournamentKey] = none) :
    keepTournament state (.map fields) = .map fields := by
  cases state with
  | map now =>
    have nothing : Dictionary.find? now tournamentKey = none := by
      simpa [get?, child?] using absent
    simp [keepTournament, fields?, nothing]
  | null | bool | amount | text | list => rfl

theorem keepTournament_of_present {now fields : Dictionary Tree} {t : Tree}
    (present : Dictionary.find? now tournamentKey = some t)
    (absent : Dictionary.find? fields tournamentKey = none) :
    keepTournament (.map now) (.map fields) = .map (Dictionary.insert tournamentKey t fields) := by
  simp [keepTournament, fields?, present, absent]

theorem merge_map (fields part : Dictionary Tree) :
    (Tree.map fields).merge (.map part) = .map (mergeFields fields part) := rfl

theorem asMap_of_isGameTree {state : Tree} (h : state.IsGameTree) : ∃ fields,
    asMap state = .map fields ∧ Dictionary.Sorted fields ∧
      Dictionary.find? fields tournamentKey = none := by
  rcases h with rfl | h
  · exact ⟨[], rfl, Dictionary.sorted_nil, rfl⟩
  · obtain ⟨fields, rfl, sorted, absent⟩ := h.exists_fields
    exact ⟨fields, rfl, sorted, absent⟩

theorem get?_of_isGameTree {state : Tree} (h : state.IsGameTree) :
    state.get? [tournamentKey] = none := by
  rcases h with rfl | h
  · rfl
  · obtain ⟨fields, rfl, -, absent⟩ := h.exists_fields
    simp [get?, child?, absent]

/-- An update of the game leads from a state of the game to another. -/
theorem IsGame.isGameTree_applyTo {patch : Patch} (h : patch.IsGame) {state : Tree}
    (game : state.IsGameTree) : (patch.applyTo state).IsGameTree := by
  cases patch with
  | replace incoming =>
    obtain ⟨fields, rfl, sorted, absent⟩ := IsGameMap.exists_fields h
    rw [applyTo, keepTournament_of_absent (get?_of_isGameTree game)]
    exact Or.inr ⟨sorted, absent⟩
  | merge part =>
    obtain ⟨more, rfl, -, absentMore⟩ := IsGameMap.exists_fields h
    obtain ⟨fields, isMap, sorted, absent⟩ := asMap_of_isGameTree game
    rw [applyTo, isMap, merge_map]
    refine Or.inr ⟨sorted_mergeFields sorted more, ?_⟩
    rw [find?_mergeFields absentMore, absent]
  | replaceAt | tournament => exact h.elim

/-- An update of the game comes to the same beside a tournament. -/
theorem IsGame.applyTo_withTournament {patch : Patch} (h : patch.IsGame) {state : Tree}
    (game : state.IsGameTree) (held : Option Tree) :
    patch.applyTo (withTournament state held) = withTournament (patch.applyTo state) held := by
  cases held with
  | none => rfl
  | some t =>
    obtain ⟨fields, isMap, sorted, -⟩ := asMap_of_isGameTree game
    obtain ⟨_, same, made⟩ := applyTo_tournament state t
    obtain rfl := Tree.map.inj (isMap.symm.trans same)
    rw [withTournament, made, withTournament]
    cases patch with
    | replace incoming =>
      obtain ⟨more, rfl, -, absentMore⟩ := IsGameMap.exists_fields h
      have present := Dictionary.find?_insert_self fields tournamentKey t
      rw [applyTo, applyTo, keepTournament_of_present present absentMore,
        keepTournament_of_absent (get?_of_isGameTree game), applyTo_tournament_map]
    | merge part =>
      obtain ⟨more, rfl, -, absentMore⟩ := IsGameMap.exists_fields h
      rw [applyTo, applyTo, isMap, asMap, merge_map, merge_map, applyTo_tournament_map,
        mergeFields_insert sorted absentMore]
    | replaceAt | tournament => exact h.elim

theorem get?_withTournament {state : Tree} (game : state.IsGameTree) (held : Option Tree) :
    (withTournament state held).get? [tournamentKey] = held := by
  cases held with
  | none => exact get?_of_isGameTree game
  | some t => exact get?_applyTo_tournament state t

end Patch

/-! ## Runs of updates -/

/-- An update of the state, with its place in its stream if it names one. -/
structure Revision where
  version : Option Int
  patch : Patch
deriving DecidableEq

def Revision.isTournament (u : Revision) : Bool := u.patch.isTournament

namespace GameState

open Patch

/-- What an update leaves of a state, accepted or not. -/
def revise (s : GameState) (u : Revision) : GameState := (s.apply u.version u.patch).2

/-- Whether a state accepts an update. -/
def accepts (s : GameState) (u : Revision) : Bool := (s.apply u.version u.patch).1.isOk

/-- What updates leave of a state, one after another. -/
def reviseAll (s : GameState) (us : List Revision) : GameState := us.foldl revise s

@[simp] theorem reviseAll_nil (s : GameState) : s.reviseAll [] = s := rfl

@[simp] theorem reviseAll_cons (s : GameState) (u : Revision) (us : List Revision) :
    s.reviseAll (u :: us) = (s.revise u).reviseAll us := rfl

/-- The updates of a run, each with whether it was accepted. -/
def verdicts : GameState → List Revision → List (Revision × Bool)
  | _, [] => []
  | s, u :: us => (u, s.accepts u) :: verdicts (s.revise u) us

/-- What a stream has reached is kept or passed. -/
def Keeps (before after : Option Int) : Prop := ∀ v, before = some v → ∃ w, after = some w ∧ v ≤ w

theorem Keeps.refl (reached : Option Int) : Keeps reached reached :=
  fun v h => ⟨v, h, Int.le_refl v⟩

/-- An update that is not stale goes past its stream, or leaves it where it is. -/
theorem keeps_reached {s : GameState} {version : Option Int} {patch : Patch}
    (fresh : s.stale? version patch = none) :
    Keeps (s.streamVersion patch) (version.or (s.streamVersion patch)) := by
  intro applied reached
  cases version with
  | none => exact ⟨applied, reached, Int.le_refl applied⟩
  | some incoming =>
    simp only [stale?, reached, ite_eq_right_iff, reduceCtorEq, imp_false, Int.not_le] at fresh
    exact ⟨incoming, rfl, Int.le_of_lt fresh⟩

/-- No update takes a stream back. -/
theorem keeps_revise (s : GameState) (u : Revision) :
    Keeps s.version (s.revise u).version ∧
      Keeps s.tournamentVersion (s.revise u).tournamentVersion := by
  unfold revise apply
  cases fresh : s.stale? u.version u.patch with
  | some e => exact ⟨Keeps.refl _, Keeps.refl _⟩
  | none =>
    have passes := keeps_reached fresh
    cases stream : u.patch.isTournament with
    | true =>
      simp only [streamVersion, stream, if_true] at passes
      simp only [streamVersion, stream, if_true]
      exact ⟨Keeps.refl _, passes⟩
    | false =>
      simp only [streamVersion, stream, Bool.false_eq_true, if_false] at passes
      simp only [streamVersion, stream, Bool.false_eq_true, if_false]
      exact ⟨passes, Keeps.refl _⟩

/-! ## The two streams apart -/

/-- The state of two streams, of which each has been by itself. -/
def join (game tournament : GameState) : GameState where
  tree := withTournament game.tree (tournament.tree.get? [tournamentKey])
  version := game.version
  tournamentVersion := tournament.tournamentVersion
  loaded := game.loaded || tournament.loaded
  accepted := game.accepted + tournament.accepted
  dropped := game.dropped + tournament.dropped

variable {g k : GameState} {u : Revision} {us : List Revision}

theorem accepts_eq (s : GameState) (u : Revision) :
    s.accepts u = (s.stale? u.version u.patch).isNone := by
  unfold accepts apply
  cases s.stale? u.version u.patch <;> rfl

theorem isGameTree_revise (h : u.patch.IsGame) (game : g.tree.IsGameTree) :
    (g.revise u).tree.IsGameTree := by
  unfold revise apply
  split
  · exact game
  · exact h.isGameTree_applyTo game

/-- An update of the game is one of its stream. -/
theorem join_revise_game (h : u.patch.IsGame) (game : g.tree.IsGameTree) :
    (join g k).accepts u = g.accepts u ∧ (join g k).revise u = join (g.revise u) k := by
  have stale : (join g k).stale? u.version u.patch = g.stale? u.version u.patch := by
    simp [stale?, streamVersion, h.isTournament, join]
  refine ⟨by rw [accepts_eq, accepts_eq, stale], ?_⟩
  unfold revise apply
  rw [stale]
  cases g.stale? u.version u.patch with
  | some e => simp [join, Nat.add_right_comm]
  | none =>
    simp [join, h.isTournament, h.applyTo_withTournament game, streamVersion, Nat.add_right_comm]

/-- An update of the tournament is one of its stream. -/
theorem join_revise_tournament (h : u.isTournament = true) :
    (join g k).accepts u = k.accepts u ∧ (join g k).revise u = join g (k.revise u) := by
  obtain ⟨version, patch⟩ := u
  cases patch with
  | replace | merge | replaceAt => cases h
  | tournament t =>
    have stale : (join g k).stale? version (.tournament t) = k.stale? version (.tournament t) := rfl
    refine ⟨by rw [accepts_eq, accepts_eq, stale], ?_⟩
    unfold revise apply
    simp only [stale]
    cases k.stale? version (.tournament t) with
    | some e => simp [join, Nat.add_assoc]
    | none =>
      simp [join, isTournament, applyTo_tournament_withTournament, get?_applyTo_tournament,
        streamVersion, Nat.add_assoc]

/-- The updates of a run belong to the two streams. -/
def InStreams (us : List Revision) : Prop := ∀ u ∈ us, u.patch.IsGame ∨ u.isTournament = true

theorem isGameTree_reviseAll (each : ∀ u ∈ us, u.patch.IsGame) (game : g.tree.IsGameTree) :
    (g.reviseAll us).tree.IsGameTree := by
  induction us generalizing g with
  | nil => exact game
  | cons u us ih =>
    exact ih (fun x hx => each x (List.mem_cons_of_mem u hx))
      (isGameTree_revise (each u List.mem_cons_self) game)

/-- A run leaves what its two streams leave, each by itself. -/
theorem reviseAll_join (each : InStreams us) (game : g.tree.IsGameTree) :
    (join g k).reviseAll us =
      join (g.reviseAll (us.filter (!·.isTournament)))
        (k.reviseAll (us.filter (·.isTournament))) := by
  induction us generalizing g k with
  | nil => rfl
  | cons u us ih =>
    have rest : InStreams us := fun x hx => each x (List.mem_cons_of_mem u hx)
    rcases each u List.mem_cons_self with isGame | isTournament
    · have stream : u.isTournament = false := isGame.isTournament
      have next := ih (k := k) rest (isGameTree_revise isGame game)
      rw [← (join_revise_game isGame game).2] at next
      simpa [stream] using next
    · have next := ih (k := k.revise u) rest game
      rw [← (join_revise_tournament isTournament).2] at next
      simpa [isTournament] using next

/-- In a run each stream has the same updates accepted as by itself. -/
theorem verdicts_join (each : InStreams us) (game : g.tree.IsGameTree) :
    ((join g k).verdicts us).filter (!·.1.isTournament) =
        g.verdicts (us.filter (!·.isTournament)) ∧
      ((join g k).verdicts us).filter (·.1.isTournament) =
        k.verdicts (us.filter (·.isTournament)) := by
  induction us generalizing g k with
  | nil => exact ⟨rfl, rfl⟩
  | cons u us ih =>
    have rest : InStreams us := fun x hx => each x (List.mem_cons_of_mem u hx)
    rcases each u List.mem_cons_self with isGame | isTournament
    · have stream : u.isTournament = false := isGame.isTournament
      obtain ⟨accepts, revised⟩ := join_revise_game (k := k) isGame game
      obtain ⟨inGame, inTournament⟩ := ih (k := k) rest (isGameTree_revise isGame game)
      simp [verdicts, stream, accepts, revised, inGame, inTournament]
    · obtain ⟨accepts, revised⟩ := join_revise_tournament (g := g) (k := k) isTournament
      obtain ⟨inGame, inTournament⟩ := ih (k := k.revise u) rest game
      simp [verdicts, isTournament, accepts, revised, inGame, inTournament]

/-- No update of the game touches the tournament. -/
theorem get?_join_revise (h : u.patch.IsGame) (game : g.tree.IsGameTree) :
    ((join g k).revise u).tree.get? [tournamentKey] = (join g k).tree.get? [tournamentKey] := by
  rw [(join_revise_game h game).2, join, join, get?_withTournament game,
    get?_withTournament (isGameTree_revise h game)]

/-- An interleaving leaves what its two streams leave, and accepts what they accept. -/
theorem run_of_interleaves {game tournament us : List Revision}
    (ofGame : ∀ u ∈ game, u.patch.IsGame) (ofTournament : ∀ u ∈ tournament, u.isTournament = true)
    (interleaves : Interleaves game tournament us) :
    empty.reviseAll us = join (empty.reviseAll game) (empty.reviseAll tournament) ∧
      (empty.verdicts us).filter (!·.1.isTournament) = empty.verdicts game ∧
      (empty.verdicts us).filter (·.1.isTournament) = empty.verdicts tournament := by
  have apart : ∀ u ∈ game, u.isTournament = false := fun u hu => (ofGame u hu).isTournament
  obtain ⟨inGame, inTournament⟩ := interleaves.filter_eq apart ofTournament
  have each : InStreams us := fun u hu => (interleaves.mem hu).imp (ofGame u) (ofTournament u)
  have fresh : empty.tree.IsGameTree := Or.inl rfl
  have run := reviseAll_join (k := empty) each fresh
  have accepted := verdicts_join (k := empty) each fresh
  rw [inGame, inTournament] at run accepted
  exact ⟨run, accepted⟩

/-- Updates of a game and of a tournament lead a fresh state to the same, however the two streams
are interleaved: to what the game and then the tournament lead to, with the same updates of each
accepted. On the way neither version goes back, and no update of the game touches the tournament. -/
theorem reviseAll_interleaves {game tournament us : List Revision}
    (ofGame : ∀ u ∈ game, u.patch.IsGame) (ofTournament : ∀ u ∈ tournament, u.isTournament = true)
    (interleaves : Interleaves game tournament us) :
    empty.reviseAll us = empty.reviseAll (game ++ tournament) ∧
      ((empty.verdicts us).filter (!·.1.isTournament) =
          (empty.verdicts (game ++ tournament)).filter (!·.1.isTournament) ∧
        (empty.verdicts us).filter (·.1.isTournament) =
          (empty.verdicts (game ++ tournament)).filter (·.1.isTournament)) ∧
      ∀ before u after, us = before ++ u :: after →
        let s := empty.reviseAll before
        (Keeps s.version (s.revise u).version ∧
            Keeps s.tournamentVersion (s.revise u).tournamentVersion) ∧
          (u ∈ game →
            (s.revise u).tree.get? [tournamentKey] = s.tree.get? [tournamentKey]) := by
  obtain ⟨run, inGame, inTournament⟩ := run_of_interleaves ofGame ofTournament interleaves
  obtain ⟨runFirst, inGameFirst, inTournamentFirst⟩ :=
    run_of_interleaves ofGame ofTournament (interleaves_append game tournament)
  refine ⟨run.trans runFirst.symm, ⟨inGame.trans inGameFirst.symm,
    inTournament.trans inTournamentFirst.symm⟩, ?_⟩
  intro before u after split s
  refine ⟨keeps_revise s u, fun hu => ?_⟩
  -- what comes before the update is itself a run of two streams
  have each : InStreams before := by
    intro x hx
    have member : x ∈ us := by
      rw [split]
      exact List.mem_append_left _ hx
    exact (interleaves.mem member).imp (ofGame x) (ofTournament x)
  have fresh : empty.tree.IsGameTree := Or.inl rfl
  have ofGameBefore : ∀ x ∈ before.filter (!·.isTournament), x.patch.IsGame := by
    intro x hx
    obtain ⟨member, stream⟩ := List.mem_filter.1 hx
    exact (each x member).resolve_right (by simpa using stream)
  have state : s = join _ _ := reviseAll_join (k := empty) each fresh
  rw [state]
  exact get?_join_revise (ofGame u hu) (isGameTree_reviseAll ofGameBefore fresh)

/-- A tournament that comes before any state of the game, a stale and an unversioned level, a stale
snapshot, and a part of the game after the tournament. -/
theorem reviseAll_interleaves_late_level :
    let pot (n : Int) : Tree := .map [("pot", .amount (.ofInt n))]
    let level (n : Int) : Tree := .map [("level", .amount (.ofInt n))]
    let first : Revision := ⟨some 2, .replace (pot 10)⟩
    let stale : Revision := ⟨some 1, .replace (pot 5)⟩
    let seat : Revision := ⟨none, .merge (.map [("seat", .text "ada")])⟩
    let opened : Revision := ⟨some 7, .tournament (level 1)⟩
    let late : Revision := ⟨some 6, .tournament (level 9)⟩
    let raised : Revision := ⟨none, .tournament (level 2)⟩
    let us := [opened, first, late, stale, raised, seat]
    empty.reviseAll us = empty.reviseAll [first, stale, seat, opened, late, raised] ∧
      (empty.reviseAll us).tree = .map [("pot", .amount (.ofInt 10)), ("seat", .text "ada"),
        ("tournament", level 2)] ∧
      (empty.reviseAll us).dropped = 2 ∧
      (empty.verdicts us).map (·.2) = [true, true, false, false, true, true] := by
  intro pot level first stale seat opened late raised us
  have ofGame : ∀ u ∈ [first, stale, seat], u.patch.IsGame := by decide +kernel
  have ofTournament : ∀ u ∈ [opened, late, raised], u.isTournament = true := by decide +kernel
  have interleaves : Interleaves [first, stale, seat] [opened, late, raised] us :=
    .right (.left (.right (.left (.right (.left .nil)))))
  exact ⟨(reviseAll_interleaves ofGame ofTournament interleaves).1, by decide +kernel,
    by decide +kernel, by decide +kernel⟩

end GameState

end TableMotion
