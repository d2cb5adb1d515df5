import TableMotion.Proofs.Grafting
import TableMotion.Proofs.Itemizing
import TableMotion.Proofs.Landing

/-!
# A path is an address

A write or a removal goes down to the node above the last key, works there, and everything on the
way is put back around what comes of it (`focus?`). So it shows at its path and nowhere beside it;
only in a list the items behind one that is removed move up (`GapClosed`). In place the same is done
to the tree itself, also where the work is refused at the end of the way: then what is put back is
the tree as it was (`workAt_eq_settle`).
-/

namespace TableMotion

theorem Path.parent?_concat (stem : Path) (key : String) :
    Path.parent? (stem ++ [key]) = some stem := by
  simp [parent?]

namespace Tree

variable {α : Type} {t u d e x : Tree} {stem p : Path} {key : String} {back : Tree → Tree}
variable {work : Tree → Except WriteFault (α × Tree)}

/-! ## Down to a node and back -/

theorem focus?_cons_eq_some {key : String} {rest : Path} :
    t.focus? (key :: rest) = some (d, back) ↔ ∃ c inner, t.child? key = some c ∧
      c.focus? rest = some (d, inner) ∧ (fun e => t.replaceChild key (inner e)) = back := by
  simp [focus?, Option.bind_eq_some_iff]

theorem map_focus? (t : Tree) (p : Path) : (t.focus? p).map (·.1) = t.get? p := by
  induction p generalizing t with
  | nil => rfl
  | cons key rest ih =>
    rw [get?_cons, focus?]
    cases t.child? key with
    | none => rfl
    | some c => simp [← ih c, Function.comp_def]

theorem focus?_eq_none_iff : t.focus? p = none ↔ t.get? p = none := by
  rw [← map_focus?, Option.map_eq_none_iff]

theorem get?_of_focus? (found : t.focus? p = some (d, back)) : t.get? p = some d := by
  rw [← map_focus?, found]
  rfl

/-- To put a node back is to write it where the old one is. -/
theorem write_of_focus? (found : t.focus? p = some (d, back)) (e : Tree) :
    write e p t = .ok (back e) := by
  induction p generalizing t back with
  | nil =>
    cases found
    rfl
  | cons key rest ih =>
    obtain ⟨c, inner, under, below, rfl⟩ := focus?_cons_eq_some.1 found
    have made := ih below
    cases rest with
    | nil =>
      have here : e = inner e := Except.ok.inj made
      rw [write, setChild_of_child? under]
      simp only [← here]
    | cons next rest => simp [write_cons, under, made, Except.map]

/-- The node that was there, put back, leaves no trace. -/
theorem back_self (wellFormed : t.WellFormed) (found : t.focus? p = some (d, back)) :
    back d = t := by
  induction p generalizing t back with
  | nil =>
    cases found
    rfl
  | cons key rest ih =>
    obtain ⟨c, inner, under, below, rfl⟩ := focus?_cons_eq_some.1 found
    have same : inner d = c := ih (wellFormed_hereditary.child wellFormed under) below
    simp only [same, replaceChild_self wellFormed under]

theorem write_get?_self (wellFormed : t.WellFormed) (here : t.get? p = some d) :
    write d p t = .ok t := by
  rw [← map_focus?] at here
  obtain ⟨⟨_, back⟩, found, rfl⟩ := Option.map_eq_some_iff.1 here
  rw [write_of_focus? found, back_self wellFormed found]

/-! ## Work at the end of the way -/

/-- What comes of the tree if the node at a path is worked on. -/
def worked (t : Tree) (p : Path) (work : Tree → Except WriteFault (α × Tree)) :
    Except WriteFault (α × Tree) :=
  match t.focus? p with
  | none => .error .unreachable
  | some (d, back) => (work d).map fun r => (r.1, back r.2)

/-- Such work goes on in the child under the first key. -/
theorem worked_concat (f : Path → Tree → Except WriteFault (α × Tree))
    (step : ∀ first next p t, f (first :: next :: p) t = match t.child? first with
      | none => .error .unreachable
      | some c => (f (next :: p) c).map fun r => (r.1, t.replaceChild first r.2))
    (stem : Path) (key : String) (t : Tree) : f (stem ++ [key]) t = t.worked stem (f [key]) := by
  induction stem generalizing t with
  | nil =>
    simp only [List.nil_append, worked, focus?]
    cases f [key] t <;> rfl
  | cons first stem ih =>
    obtain ⟨next, rest, split⟩ := List.exists_cons_of_ne_nil (List.concat_ne_nil key stem)
    rw [List.cons_append, split, step, ← split]
    cases under : t.child? first with
    | none => simp [worked, focus?, under]
    | some c =>
      simp only [ih, worked, focus?, under, Option.bind_some]
      cases c.focus? stem with
      | none => rfl
      | some found =>
        simp only [Option.map_some]
        cases f [key] found.1 <;> rfl

theorem write_concat (x : Tree) (stem : Path) (key : String) (t : Tree) :
    (write x (stem ++ [key]) t).map ((), ·) =
      t.worked stem fun d => (d.setChild key x).map ((), ·) := by
  refine worked_concat (fun p t => (write x p t).map ((), ·)) (fun first next p t => ?_)
    stem key t
  simp only [write_cons]
  cases t.child? first with
  | none => rfl
  | some c =>
    simp only
    cases write x (next :: p) c <;> rfl

theorem takeOut_concat (stem : Path) (key : String) (t : Tree) :
    takeOut (stem ++ [key]) t = t.worked stem (·.removeChild key) :=
  worked_concat takeOut takeOut_cons stem key t

theorem worked_ok {answer : α} : t.worked p work = .ok (answer, u) ↔
    ∃ d e, t.get? p = some d ∧ work d = .ok (answer, e) ∧ write e p t = .ok u := by
  cases found : t.focus? p with
  | none => simp [worked, found, focus?_eq_none_iff.1 found]
  | some f =>
    obtain ⟨d, back⟩ := f
    simp only [worked, found, get?_of_focus? found, write_of_focus? found, Option.some.injEq,
      Except.ok.injEq, exists_and_left, exists_eq_left']
    cases work d with
    | error fault => simp [Except.map]
    | ok r =>
      obtain ⟨given, e⟩ := r
      simp only [Except.map, Except.ok.injEq, Prod.mk.injEq]
      constructor
      · rintro ⟨rfl, rfl⟩
        exact ⟨e, ⟨rfl, rfl⟩, rfl⟩
      · rintro ⟨_, ⟨rfl, rfl⟩, rfl⟩
        exact ⟨rfl, rfl⟩

/-! ## In place -/

/-- The answer and the tree that is left: the new one, or after a refusal the one that was there. -/
def settle {ε : Type} (t : Tree) : Except ε (α × Tree) → Except ε α × Tree
  | .ok (answer, u) => (.ok answer, u)
  | .error refusal => (.error refusal, t)

theorem workAt_eq_settle (wellFormed : t.WellFormed) (p : Path)
    (work : Tree → Except WriteFault (α × Tree)) :
    t.workAt p work = t.settle (t.worked p work) := by
  unfold workAt worked
  cases found : t.focus? p with
  | none => rfl
  | some f =>
    obtain ⟨d, back⟩ := f
    cases result : work d with
    | error fault => simp [settle, Except.map, back_self wellFormed found, result]
    | ok r => simp [settle, Except.map, result]

theorem setInPlace_eq_settle (wellFormed : t.WellFormed) (p : Path) (x : Tree) :
    t.setInPlace p x = t.settle ((t.set p x).map ((), ·)) := by
  rcases List.eq_nil_or_concat p with rfl | ⟨stem, key, rfl⟩
  · rfl
  · rw [List.concat_eq_append]
    simp only [setInPlace, Path.parent?_concat, List.getLast?_concat, Tree.set,
      workAt_eq_settle wellFormed, ← write_concat]
    cases write x (stem ++ [key]) t <;> rfl

theorem removeInPlace_eq_settle (wellFormed : t.WellFormed) (p : Path) :
    t.removeInPlace p = t.settle (t.remove p) := by
  rcases List.eq_nil_or_concat p with rfl | ⟨stem, key, rfl⟩
  · rfl
  · rw [List.concat_eq_append]
    simp only [removeInPlace, Path.parent?_concat, List.getLast?_concat, Tree.remove,
      workAt_eq_settle wellFormed, ← takeOut_concat]
    cases takeOut (stem ++ [key]) t <;> rfl

theorem putInPlace_eq_settle (wellFormed : t.WellFormed) (p : Path) (v : Option Tree) :
    t.putInPlace p v = t.settle ((t.put p v).map ((), ·)) := by
  cases v with
  | some x => exact setInPlace_eq_settle wellFormed p x
  | none =>
    simp only [putInPlace, put, removeInPlace_eq_settle wellFormed]
    cases t.remove p <;> rfl

/-! ## What a removal leaves -/

theorem get?_below (here : t.get? stem = some d) (key : String) (rest : Path) :
    t.get? (stem ++ key :: rest) = (d.child? key).bind (·.get? rest) := by
  rw [get?_append, here, Option.bind_some, get?_cons]

theorem takeOut_concat_eq_ok {old : Option Tree} : takeOut (stem ++ [key]) t = .ok (old, u) ↔
    ∃ d e, t.get? stem = some d ∧ d.removeChild key = .ok (old, e) ∧ write e stem t = .ok u := by
  rw [takeOut_concat, worked_ok]

/-- What was at the path is given back. -/
theorem takeOut_fst {old : Option Tree} (made : takeOut (stem ++ [key]) t = .ok (old, u)) :
    old = t.get? (stem ++ [key]) := by
  obtain ⟨d, e, here, taken, -⟩ := takeOut_concat_eq_ok.1 made
  have given : old = d.child? key := removeChild_fst taken
  rw [given, get?_below here]
  cases d.child? key <;> rfl

/-- The item at `i` of the list at `stem` is gone, and those behind it have moved up. -/
structure GapClosed (t u : Tree) (stem : Path) (items : List Tree) (i : Nat) : Prop where
  list : u.get? stem = some (.list (items.eraseIdx i))
  before : ∀ j rest, j < i →
    u.get? (stem ++ Path.indexKey j :: rest) = t.get? (stem ++ Path.indexKey j :: rest)
  behind : ∀ j rest, i < j → j < 0x10000000000000000 →
    u.get? (stem ++ Path.indexKey (j - 1) :: rest) = t.get? (stem ++ Path.indexKey j :: rest)
  beside : SameBeside stem t u

/-- What a removal leaves, by the node above. -/
def Leaves (t u : Tree) (stem : Path) (key : String) : Tree → Prop
  | .map _ => u.get? (stem ++ [key]) = none ∧ SameBeside (stem ++ [key]) t u
  | .list items => ∃ i, Path.index? key = some i ∧
      (i < items.length ∧ GapClosed t u stem items i ∨ items.length ≤ i ∧ u = t)
  | .null | .bool _ | .amount _ | .text _ => False

/-- If one child of a node changes, what is beside the path of the child stays. -/
theorem sameBeside_of_write (here : t.get? stem = some d)
    (others : ∀ other, key ≠ other → e.child? other = d.child? other)
    (put : write e stem t = .ok u) : SameBeside (stem ++ [key]) t u := by
  intro q apart aside
  cases below : stem.covers q with
  | false =>
    exact get?_write_beside put below
      (Path.not_covers_above aside (Path.covers_append stem [key]))
  | true =>
    obtain ⟨rest, rfl⟩ := Path.covers_iff.1 below
    rw [Path.append_covers_append] at apart aside
    cases rest with
    | nil => cases aside
    | cons other rest =>
      have different : key ≠ other := by
        rintro rfl
        simp [Path.covers] at apart
      rw [get?_below (get?_write_self put), get?_below here, others other different]

theorem gapClosed_of_write {items : List Tree} {i : Nat} (here : t.get? stem = some (.list items))
    (small : i < 0x10000000000000000) (put : write (.list (items.eraseIdx i)) stem t = .ok u) :
    GapClosed t u stem items i where
  list := get?_write_self put
  before := by
    intro j rest less
    rw [get?_below (get?_write_self put), get?_below here, child?_indexKey _ (by omega),
      child?_indexKey _ (by omega), List.getElem?_eraseIdx_of_lt less]
  behind := by
    intro j rest less known
    rw [get?_below (get?_write_self put), get?_below here, child?_indexKey _ (by omega),
      child?_indexKey _ known, List.getElem?_eraseIdx_of_ge (by omega),
      Nat.sub_add_cancel (by omega)]
  beside := fun _ => get?_write_beside put

theorem leaves_takeOut (wellFormed : t.WellFormed) {old : Option Tree}
    (made : takeOut (stem ++ [key]) t = .ok (old, u)) :
    ∃ d, t.get? stem = some d ∧ Leaves t u stem key d := by
  obtain ⟨d, e, here, taken, put⟩ := takeOut_concat_eq_ok.1 made
  refine ⟨d, here, ?_⟩
  cases d with
  | map fields =>
    cases taken
    refine ⟨?_, sameBeside_of_write here (fun other different => ?_) put⟩
    · rw [get?_below (get?_write_self put)]
      simp [child?, Dictionary.find?_erase]
    · simp [child?, Dictionary.find?_erase, different]
  | list items =>
    simp only [removeChild] at taken
    split at taken
    · cases taken
    · rename_i i named
      cases taken
      refine ⟨i, named, ?_⟩
      rcases Nat.lt_or_ge i items.length with inside | outside
      · exact Or.inl ⟨inside, gapClosed_of_write here (Path.eq_indexKey_of_index? named).2 put⟩
      · -- the list goes back as it was
        rw [List.eraseIdx_of_length_le outside, write_get?_self wellFormed here] at put
        exact Or.inr ⟨outside, (Except.ok.inj put).symm⟩
  | null | bool | amount | text => cases taken

/-! ## The laws of access -/

theorem remove_ok {r : Option Tree × Tree} : t.remove p = .ok r ↔ takeOut p t = .ok r := by
  cases made : takeOut p t <;> simp [Tree.remove, made, Except.mapError]

theorem exists_set_iff : (∃ u, t.set p x = .ok u) ↔ p = Path.root ∨
    ∃ stem key d, p = stem ++ [key] ∧ t.get? stem = some d ∧ d.Admits key := by
  simp only [show ∀ u, t.set p x = .ok u ↔ write x p t = .ok u from fun _ => put_some_ok]
  rcases List.eq_nil_or_concat p with rfl | ⟨stem, key, rfl⟩
  · exact ⟨fun _ => Or.inl rfl, fun _ => ⟨x, rfl⟩⟩
  · rw [List.concat_eq_append, exists_write_iff]
    simp [Path.root]

theorem exists_remove_iff : (∃ r, t.remove p = .ok r) ↔
    ∃ stem key, p = stem ++ [key] ∧ Clears (some t) stem key := by
  simp only [← clears_iff, put_none_ok, remove_ok]
  constructor
  · rintro ⟨⟨old, u⟩, made⟩
    rcases List.eq_nil_or_concat p with rfl | ⟨stem, key, rfl⟩
    · cases made
    · rw [List.concat_eq_append] at made ⊢
      exact ⟨stem, key, rfl, u, old, made⟩
  · rintro ⟨stem, key, rfl, u, old, made⟩
    exact ⟨_, made⟩

/-- A value can be written exactly at the root and where the node above takes the key; then it is
what the path holds, and nothing beside the path changes. A removal, from a map or at an index of a
list, gives back exactly what the path held, and leaves nothing under a key of a map, a closed gap
in a list, and the same tree if the index is past the end. In place the tree becomes the new one,
and after a refusal it is the same. -/
theorem access_laws (t : Tree) (wellFormed : t.WellFormed) (p : Path) :
    (∀ x, (∃ u, t.set p x = .ok u) ↔ p = Path.root ∨
      ∃ stem key d, p = stem ++ [key] ∧ t.get? stem = some d ∧ d.Admits key) ∧
    (∀ x u, t.set p x = .ok u → Placed t p x u) ∧
    ((∃ r, t.remove p = .ok r) ↔ ∃ stem key, p = stem ++ [key] ∧ Clears (some t) stem key) ∧
    (∀ old u, t.remove p = .ok (old, u) → old = t.get? p ∧
      ∃ stem key d, p = stem ++ [key] ∧ t.get? stem = some d ∧ Leaves t u stem key d) ∧
    (∀ x, t.setInPlace p x = t.settle ((t.set p x).map ((), ·))) ∧
    t.removeInPlace p = t.settle (t.remove p) ∧
    ∀ v, t.putInPlace p v = t.settle ((t.put p v).map ((), ·)) := by
  refine ⟨fun x => exists_set_iff, fun x u made => placed_write (put_some_ok.1 made),
    exists_remove_iff, fun old u made => ?_, setInPlace_eq_settle wellFormed p,
    removeInPlace_eq_settle wellFormed p, putInPlace_eq_settle wellFormed p⟩
  obtain ⟨stem, key, rfl, -⟩ := exists_remove_iff.1 ⟨_, made⟩
  have taken := remove_ok.1 made
  obtain ⟨d, here, leaves⟩ := leaves_takeOut wellFormed taken
  exact ⟨takeOut_fst taken, stem, key, d, rfl, here, leaves⟩

/-- A fourth card can be laid under `3`, but not under `03`, no card can be taken under `+1`, and
once the second card is taken the third one lies under its key. -/
theorem access_laws_board :
    let t : Tree :=
      .map [("board", .list [.text "Ah", .text "Kd", .text "2c"]), ("pot", .text "50")]
    let left : Tree := .map [("board", .list [.text "Ah", .text "2c"]), ("pot", .text "50")]
    (∃ u, t.set ["board", "3"] (.text "9s") = .ok u ∧ Placed t ["board", "3"] (.text "9s") u) ∧
      t.setInPlace ["board", "03"] (.text "9s") = (.error ⟨.unreachable, ["board", "03"]⟩, t) ∧
      t.removeInPlace ["board", "+1"] = (.error ⟨.unreachable, ["board", "+1"]⟩, t) ∧
      t.remove ["board", "1"] = .ok (t.get? ["board", "1"], left) ∧
      left.get? ["board", "1"] = t.get? ["board", "2"] := by
  intro t left
  have wellFormed : t.WellFormed := by decide +kernel
  have board : t.get? ["board"] = some (.list [.text "Ah", .text "Kd", .text "2c"]) := rfl
  obtain ⟨sets, placed, -⟩ := access_laws t wellFormed ["board", "3"]
  obtain ⟨-, -, -, -, refused, -⟩ := access_laws t wellFormed ["board", "03"]
  obtain ⟨-, -, -, -, -, kept, -⟩ := access_laws t wellFormed ["board", "+1"]
  obtain ⟨-, -, -, taken, -⟩ := access_laws t wellFormed ["board", "1"]
  have fourth : Path.index? "3" = some 3 := by decide +kernel
  obtain ⟨u, made⟩ := (sets (.text "9s")).2
    (Or.inr ⟨["board"], "3", _, rfl, board, 3, fourth, Nat.le_refl 3⟩)
  have removed : t.remove ["board", "1"] = .ok (some (.text "Kd"), left) := rfl
  refine ⟨⟨u, made, placed _ u made⟩, ?_, ?_, ?_, rfl⟩
  · rw [refused]
    rfl
  · rw [kept]
    rfl
  · rw [removed, (taken _ _ removed).1]

end Tree

end TableMotion
