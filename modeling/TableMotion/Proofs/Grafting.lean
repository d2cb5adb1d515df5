import TableMotion.GameState
import TableMotion.Proofs.Faces

/-!
# Grafts are all or nothing

A subtree that is put at a path goes below the deepest node above the path that is there, and the
maps that are missing in between are made first. If that node has no room for the next key, every
write at the path or between fails, and nothing is made (`graft_of_not_admits`). If it has, each map
that is made has room for the next one, and nothing beside the path changes (`placed_graft`).
-/

namespace TableMotion

namespace Tree

variable {t u d x value : Tree} {stem p q rest : Path} {key : String}

/-! ## Writes that fail -/

theorem child?_of_not_admits (refuses : ¬ t.Admits key) : t.child? key = none :=
  Option.eq_none_iff_forall_ne_some.2 fun _ found => refuses (admits_of_child? found)

/-- A node that refuses a key refuses all writes below it. -/
theorem write_of_not_admits (here : t.get? stem = some d) (refuses : ¬ d.Admits key) (rest : Path)
    (value : Tree) : ∃ fault, write value (stem ++ key :: rest) t = .error fault := by
  cases made : write value (stem ++ key :: rest) t with
  | error fault => exact ⟨fault, rfl⟩
  | ok u =>
    rcases List.eq_nil_or_concat rest with rfl | ⟨rest, last, rfl⟩
    · obtain ⟨e, same, admits⟩ := exists_write_iff.1 ⟨u, made⟩
      rw [here] at same
      cases same
      exact absurd admits refuses
    · rw [List.concat_eq_append, ← List.cons_append, ← List.append_assoc] at made
      obtain ⟨e, there, -⟩ := exists_write_iff.1 ⟨u, made⟩
      rw [get?_append, here, Option.bind_some, get?_cons, child?_of_not_admits refuses] at there
      cases there

/-! ## The deepest node above a path -/

/-- `stem` is the deepest node above a path that is there. -/
structure Deepest (t : Tree) (p stem : Path) : Prop where
  above : stem.isAbove p = true
  present : (t.get? stem).isSome = true
  deepest : ∀ q : Path, q.isAbove p = true → (t.get? q).isSome = true → q.covers stem = true

theorem deepest_iff : t.Deepest (stem ++ key :: rest) stem ↔
    ∃ d, t.get? stem = some d ∧ (rest = [] ∨ d.child? key = none) := by
  constructor
  · intro h
    obtain ⟨d, here⟩ := Option.isSome_iff_exists.1 h.present
    refine ⟨d, here, ?_⟩
    cases rest with
    | nil => exact Or.inl rfl
    | cons next rest =>
      right
      cases found : d.child? key with
      | none => rfl
      | some c =>
        -- a child under the key would be a deeper node
        have above : Path.isAbove (stem ++ [key]) (stem ++ key :: next :: rest) = true :=
          Path.isAbove_iff.2 ⟨next, rest, by simp⟩
        have there : (t.get? (stem ++ [key])).isSome = true := by
          simp [get?_append, here, get?, found]
        have covers := h.deepest _ above there
        rw [Path.concat_not_covers] at covers
        cases covers
  · rintro ⟨d, here, ends⟩
    refine ⟨Path.isAbove_iff.2 ⟨key, rest, rfl⟩, by rw [here]; rfl, fun q above there => ?_⟩
    rcases Path.covers_or_covers (Path.covers_of_isAbove above) (Path.covers_append stem _)
      with covers | covers
    · exact covers
    · obtain ⟨more, rfl⟩ := Path.covers_iff.1 covers
      cases more with
      | nil => rw [List.append_nil, Path.covers_self]
      | cons other more =>
        obtain ⟨k, last, split⟩ := Path.isAbove_iff.1 above
        have tails : key :: rest = other :: (more ++ k :: last) := by simpa using split
        obtain ⟨rfl, rfl⟩ := List.cons.inj tails
        have missing := ends.resolve_left (by simp)
        rw [get?_append, here, Option.bind_some, get?_cons, missing] at there
        cases there

/-- Above every path but the root some node is the deepest. -/
theorem exists_deepest (t : Tree) (key : String) (p : Path) : ∃ stem next rest,
    key :: p = stem ++ next :: rest ∧ t.Deepest (key :: p) stem := by
  suffices reach : ∃ stem next rest, key :: p = stem ++ next :: rest ∧
      ∃ d, t.get? stem = some d ∧ (rest = [] ∨ d.child? next = none) by
    obtain ⟨stem, next, rest, split, ends⟩ := reach
    exact ⟨stem, next, rest, split, split ▸ deepest_iff.2 ends⟩
  induction p generalizing t key with
  | nil => exact ⟨[], key, [], rfl, t, get?_root t, Or.inl rfl⟩
  | cons second p ih =>
    cases found : t.child? key with
    | none => exact ⟨[], key, second :: p, rfl, t, get?_root t, Or.inr found⟩
    | some c =>
      obtain ⟨stem, next, rest, split, d, here, ends⟩ := ih c second
      refine ⟨key :: stem, next, rest, congrArg (key :: ·) split, d, ?_, ends⟩
      rw [get?_cons, found]
      exact here

/-- A path at which a subtree can be put, with maps where nodes above it are missing. -/
def HasPlace (t : Tree) (p : Path) : Prop :=
  p = Path.root ∨ ∃ stem key rest d, p = stem ++ key :: rest ∧ t.Deepest p stem ∧
    t.get? stem = some d ∧ d.Admits key

/-- On the way to a path without a place some node refuses the next key. -/
theorem exists_refusal (refuses : ¬ t.HasPlace p) : ∃ stem key rest d,
    p = stem ++ key :: rest ∧ t.get? stem = some d ∧ ¬ d.Admits key := by
  cases p with
  | nil => exact absurd (Or.inl rfl) refuses
  | cons first p =>
    obtain ⟨stem, key, rest, split, deepest⟩ := exists_deepest t first p
    obtain ⟨d, here⟩ := Option.isSome_iff_exists.1 deepest.present
    exact ⟨stem, key, rest, d, split, here, fun admits =>
      refuses (Or.inr ⟨stem, key, rest, d, split, deepest, here, admits⟩)⟩

theorem get?_of_not_hasPlace (refuses : ¬ t.HasPlace p) : t.get? p = none := by
  obtain ⟨stem, key, rest, d, rfl, here, noRoom⟩ := exists_refusal refuses
  rw [get?_append, here, Option.bind_some, get?_cons, child?_of_not_admits noRoom]
  rfl

/-- Two trees hold the same wherever a path neither leads to `p` nor goes on from it. -/
def SameBeside (p : Path) (before after : Tree) : Prop :=
  ∀ q : Path, p.covers q = false → q.covers p = false → after.get? q = before.get? q

/-- A tree holds `x` at `p`, and beside it what another tree held. -/
def Placed (before : Tree) (p : Path) (x after : Tree) : Prop :=
  after.get? p = some x ∧ SameBeside p before after

theorem placed_write (made : write x p t = .ok u) : Placed t p x u :=
  ⟨get?_write_self made, fun _ => get?_write_beside made⟩

/-- Of an empty map that is made where nothing was, paths beside a longer path see nothing. -/
theorem sameBeside_of_emptyMap (missing : t.get? p = none) (made : write emptyMap p t = .ok u)
    (rest : Path) : SameBeside (p ++ rest) t u := by
  intro q apart aside
  cases covered : p.covers q with
  | false =>
    exact get?_write_beside made covered
      (Path.not_covers_above aside (Path.covers_append p rest))
  | true =>
    obtain ⟨more, rfl⟩ := Path.covers_iff.1 covered
    rw [get?_write_under made, get?_append, missing]
    cases more with
    | nil => simp [Path.covers_append] at aside
    | cons key more => rfl

end Tree

namespace Patch

open TableMotion.Tree

variable {t u d x : Tree} {stem p q rest : Path} {key : String}

/-! ## Nodes that are made on the way -/

theorem ensureNode_of_present (present : (t.get? p).isSome = true) : ensureNode t p = t := by
  rw [ensureNode, if_pos present]

theorem ensureNode_of_refused {fault : WriteFault}
    (refused : write Tree.emptyMap p t = .error fault) : ensureNode t p = t := by
  unfold ensureNode
  split
  · rfl
  · rw [Tree.set, refused]
    rfl

theorem ensureNode_of_made (missing : t.get? p = none) (made : write Tree.emptyMap p t = .ok u) :
    ensureNode t p = u := by
  rw [ensureNode, missing, Tree.set, made]
  rfl

theorem graft_of_made (made : write x p ((innerPaths p).foldl ensureNode t) = .ok u) :
    graft t p x = u := by
  rw [graft, Tree.set, made]
  rfl

theorem innerPaths_cons_cons (key next : String) (p : Path) :
    innerPaths (key :: next :: p) = [key] :: (innerPaths (next :: p)).map (key :: ·) := by
  simp [innerPaths, List.range_succ_eq_map]

/-- The inner paths below a node follow those down to it. -/
theorem exists_innerPaths_append (stem : Path) (key : String) (rest : Path) :
    ∃ front : List Path, (∀ q ∈ front, q.covers stem = true) ∧
      innerPaths (stem ++ key :: rest) = front ++ (innerPaths (key :: rest)).map (stem ++ ·) := by
  induction stem with
  | nil => exact ⟨[], by simp, by simp⟩
  | cons first stem ih =>
    obtain ⟨front, covers, split⟩ := ih
    refine ⟨[first] :: front.map (first :: ·), ?_, ?_⟩
    · intro q hq
      rcases List.mem_cons.1 hq with rfl | hq
      · exact Path.covers_append [first] stem
      · obtain ⟨r, hr, rfl⟩ := List.mem_map.1 hq
        obtain ⟨more, rfl⟩ := Path.covers_iff.1 (covers r hr)
        exact Path.covers_append (first :: r) more
    · obtain ⟨next, tail, same⟩ := List.exists_cons_of_ne_nil
        (List.append_ne_nil_of_right_ne_nil stem (List.cons_ne_nil key rest))
      rw [List.cons_append, same, innerPaths_cons_cons, ← same, split]
      simp

theorem innerPaths_covers {q : Path} (inner : q ∈ innerPaths (key :: rest)) :
    Path.covers [key] q = true := by
  cases rest with
  | nil => cases inner
  | cons next rest =>
    rw [innerPaths_cons_cons] at inner
    rcases List.mem_cons.1 inner with rfl | inner
    · exact Path.covers_self [key]
    · obtain ⟨r, -, rfl⟩ := List.mem_map.1 inner
      exact Path.covers_append [key] r

/-! ## The two outcomes -/

theorem foldl_ensureNode_of_fixed (paths : List Path) (fixed : ∀ q ∈ paths, ensureNode t q = t) :
    paths.foldl ensureNode t = t := by
  induction paths with
  | nil => rfl
  | cons q paths ih =>
    rw [List.foldl_cons, fixed q List.mem_cons_self]
    exact ih fun r hr => fixed r (List.mem_cons_of_mem q hr)

/-- Nodes down to one that is there are not made again. -/
theorem foldl_ensureNode_front {front : List Path} (covers : ∀ q ∈ front, q.covers stem = true)
    (here : t.get? stem = some d) : front.foldl ensureNode t = t := by
  refine foldl_ensureNode_of_fixed front fun q hq => ensureNode_of_present ?_
  obtain ⟨more, rfl⟩ := Path.covers_iff.1 (covers q hq)
  rw [get?_append] at here
  obtain ⟨e, there, -⟩ := Option.bind_eq_some_iff.1 here
  rw [there]
  rfl

theorem graft_of_not_admits (here : t.get? stem = some d) (refuses : ¬ d.Admits key)
    (rest : Path) (x : Tree) : graft t (stem ++ key :: rest) x = t := by
  obtain ⟨front, covers, split⟩ := exists_innerPaths_append stem key rest
  have opened : (innerPaths (stem ++ key :: rest)).foldl ensureNode t = t := by
    rw [split, List.foldl_append, foldl_ensureNode_front covers here]
    refine foldl_ensureNode_of_fixed _ fun q hq => ?_
    obtain ⟨r, inner, rfl⟩ := List.mem_map.1 hq
    obtain ⟨more, rfl⟩ := Path.covers_iff.1 (innerPaths_covers inner)
    obtain ⟨fault, refused⟩ := write_of_not_admits here refuses more emptyMap
    exact ensureNode_of_refused refused
  obtain ⟨fault, refused⟩ := write_of_not_admits here refuses rest x
  rw [graft, opened, Tree.set, refused]
  rfl

/-- Below a node with room, every map that is missing is made, and the last one has room too. -/
theorem exists_foldl_ensureNode (here : t.get? stem = some d) (admits : d.Admits key)
    (missing : rest = [] ∨ d.child? key = none) : ∃ w,
    ((innerPaths (key :: rest)).map (stem ++ ·)).foldl ensureNode t = w ∧
      SameBeside (stem ++ key :: rest) t w ∧ ∀ x, ∃ u, write x (stem ++ key :: rest) w = .ok u := by
  induction rest generalizing t stem d key with
  | nil => exact ⟨t, rfl, fun _ _ _ => rfl, fun x => exists_write_iff.2 ⟨d, here, admits⟩⟩
  | cons next rest ih =>
    have room : ∃ u, write emptyMap (stem ++ [key]) t = .ok u :=
      exists_write_iff.2 ⟨d, here, admits⟩
    obtain ⟨opened, made⟩ := room
    have nothing : t.get? (stem ++ [key]) = none := by
      rw [get?_append, here, Option.bind_some, get?_cons, missing.resolve_left (by simp)]
      rfl
    have there : opened.get? (stem ++ [key]) = some emptyMap := (placed_write made).1
    obtain ⟨w, rfl, beside, room⟩ := ih there trivial (Or.inr rfl)
    have same : stem ++ [key] ++ next :: rest = stem ++ key :: next :: rest := by simp
    rw [same] at beside room
    refine ⟨_, ?_, fun q apart aside => ?_, room⟩
    · rw [innerPaths_cons_cons, List.map_cons, List.foldl_cons, ensureNode_of_made nothing made,
        List.map_map]
      simp [Function.comp_def]
    · rw [beside q apart aside]
      exact sameBeside_of_emptyMap nothing made (next :: rest) q (same ▸ apart) (same ▸ aside)

theorem placed_graft (place : t.HasPlace p) (x : Tree) : Placed t p x (graft t p x) := by
  rcases place with rfl | ⟨stem, key, rest, d, rfl, deepest, here, admits⟩
  · exact placed_write rfl
  · obtain ⟨e, same, missing⟩ := deepest_iff.1 deepest
    rw [here] at same
    cases same
    obtain ⟨front, covers, split⟩ := exists_innerPaths_append stem key rest
    obtain ⟨w, opened, beside, room⟩ := exists_foldl_ensureNode here admits missing
    obtain ⟨u, made⟩ := room x
    have grafted : graft t (stem ++ key :: rest) x = u := by
      apply graft_of_made
      rw [split, List.foldl_append, foldl_ensureNode_front covers here, opened]
      exact made
    obtain ⟨holds, kept⟩ := placed_write made
    rw [grafted]
    exact ⟨holds, fun q apart aside => (kept q apart aside).trans (beside q apart aside)⟩

theorem graft_of_not_hasPlace (refuses : ¬ t.HasPlace p) (x : Tree) : graft t p x = t := by
  obtain ⟨stem, key, rest, d, rfl, here, noRoom⟩ := exists_refusal refuses
  exact graft_of_not_admits here noRoom rest x

theorem placed_graft_iff : Placed t p x (graft t p x) ↔ t.HasPlace p := by
  constructor
  · intro placed
    by_cases place : t.HasPlace p
    · exact place
    · have holds := placed.1
      rw [graft_of_not_hasPlace place, get?_of_not_hasPlace place] at holds
      cases holds
  · exact fun place => placed_graft place x

/-- A tournament always finds its place. -/
theorem placed_tournament (current x : Tree) :
    Placed (asMap current) [tournamentKey] x ((tournament x).applyTo current) := by
  refine placed_graft (Or.inr ⟨[], tournamentKey, [], asMap current, rfl, ?_, rfl, ?_⟩) x
  · exact deepest_iff.2 ⟨_, rfl, Or.inl rfl⟩
  · cases current <;> trivial

end Patch

namespace GameState

open TableMotion.Tree

variable {s s' : GameState} {version : Option Int} {p : Path} {x : Tree} {done : Acceptance}

theorem tree_of_accepted {patch : Patch} (accepted : s.apply version patch = (.ok done, s')) :
    s'.tree = patch.applyTo s.tree := by
  unfold apply at accepted
  split at accepted
  · cases accepted
  · cases accepted
    rfl

/-- An accepted subtree for a path is put there and nothing beside the path changes, or nothing at
all changes: the first exactly if the path is the root, or the deepest node above it that is there
has room for the next key. At the root the subtree becomes the state. -/
theorem tree_of_replaceAt (accepted : s.apply version (.replaceAt p x) = (.ok done, s')) :
    (Placed (Patch.asMap s.tree) p x s'.tree ∨ s'.tree = Patch.asMap s.tree) ∧
      (Placed (Patch.asMap s.tree) p x s'.tree ↔ (Patch.asMap s.tree).HasPlace p) ∧
      (p = Path.root → s'.tree = x) := by
  have grafted : s'.tree = Patch.graft (Patch.asMap s.tree) p x := tree_of_accepted accepted
  rw [grafted]
  refine ⟨?_, Patch.placed_graft_iff, ?_⟩
  · by_cases place : (Patch.asMap s.tree).HasPlace p
    · exact Or.inl (Patch.placed_graft place x)
    · exact Or.inr (Patch.graft_of_not_hasPlace place x)
  · rintro rfl
    rfl

/-- Behind the last card of a board there is room for a card, with a map for its suit. Further
behind there is none, and the map is not made either. -/
theorem tree_of_replaceAt_next_card :
    let t : Tree := .map [("board", .list [.text "Ah"]), ("pot", .text "50")]
    let s : GameState := { empty with tree := t, loaded := true }
    let left (key : String) := (s.apply none (.replaceAt ["board", key, "suit"] (.text "h"))).2.tree
    Placed t ["board", "1", "suit"] (.text "h") (left "1") ∧ left "2" = t := by
  intro t s left
  have next : Placed t ["board", "1", "suit"] (.text "h") (left "1") ↔
      t.HasPlace ["board", "1", "suit"] := (@tree_of_replaceAt s _ none _ _ _ rfl).2.1
  have further : Placed t ["board", "2", "suit"] (.text "h") (left "2") ∨ left "2" = t :=
    (@tree_of_replaceAt s _ none _ _ _ rfl).1
  have deepest : t.Deepest (["board"] ++ "1" :: ["suit"]) ["board"] :=
    deepest_iff.2 ⟨.list [.text "Ah"], rfl, Or.inr (by decide +kernel)⟩
  refine ⟨next.2 ?_, further.resolve_left fun placed => ?_⟩
  · refine Or.inr ⟨["board"], "1", ["suit"], .list [.text "Ah"], rfl, deepest, rfl, ?_⟩
    exact ⟨1, by decide +kernel, Nat.le_refl 1⟩
  · have missing : (left "2").get? ["board", "2", "suit"] = none := by decide +kernel
    rw [placed.1] at missing
    cases missing

end GameState

end TableMotion
