import TableMotion.Proofs.Bearing

/-!
# Differences are exact, and independent without lists

A change says what either tree has at its path (`Between.sides`), and where no change bears on a
path both trees have the same there (`get?_eq_of_beside`). Changes that stand apart and can each be
made at first can be made in any order in trees without lists (`AnyFirst.applyChanges_perm`): none
of them takes away the place of another, and the writes commute.
-/

namespace TableMotion

instance (p : Path) (c : Change) : Decidable (c.BearsOn p) :=
  inferInstanceAs (Decidable (_ ∨ _))

namespace Tree

/-! ## What a change says -/

theorem removeChild_fst {t : Tree} {key : String} {r : Option Tree × Tree}
    (made : t.removeChild key = .ok r) : r.1 = t.child? key := by
  cases t with
  | map fields =>
    cases made
    rfl
  | list items =>
    simp only [removeChild] at made
    split at made
    · cases made
    · rename_i i named
      cases made
      simp [child?, named]
  | null | bool | amount | text => cases made

/-- A change holds what either tree has at its path, and these differ. -/
theorem Between.sides {old new : Tree} {c : Change} (h : Between old new c) :
    c.old = old.get? c.path ∧ c.new = new.get? c.path ∧ c.old ≠ c.new := by
  induction h with
  | whole different => exact ⟨(get?_root _).symm, (get?_root _).symm, by simpa using different⟩
  | added room there =>
    have absent := removeChild_fst room
    refine ⟨?_, ?_, nofun⟩
    · rw [get?_cons, ← absent]
      rfl
    · rw [get?_cons, there]
      rfl
  | removed there room =>
    have absent := removeChild_fst room
    refine ⟨?_, ?_, nofun⟩
    · rw [get?_cons, there]
      rfl
    · rw [get?_cons, ← absent]
      rfl
  | under before after _ ih =>
    simp only [Change.under, get?_cons, before, after, Option.bind_some]
    exact ih

/-- Where no change bears on a path, both trees have the same. -/
theorem get?_eq_of_beside (p : Path) {old new : Tree} (hold : old.Regular) (hnew : new.Regular)
    (beside : ∀ c ∈ changes old new, ¬ c.BearsOn p) : old.get? p = new.get? p := by
  induction p generalizing old new with
  | nil =>
    have nothing : changes old new = [] :=
      List.eq_nil_iff_forall_not_mem.2 fun c hc => beside c hc (Or.inr rfl)
    rw [(changes_eq_nil_iff hold hnew).1 nothing]
  | cons key p ih =>
    by_cases same : old.face = new.face
    · have noneHere : ∀ c, KeyChange key (old.child? key) (new.child? key) c →
          ¬ c.BearsOn (key :: p) := fun c made =>
        beside c ((mem_changes_iff hold hnew same).2 ⟨key, made⟩)
      rw [get?_cons, get?_cons]
      cases there : old.child? key with
      | none =>
        cases thereNew : new.child? key with
        | none => rfl
        | some u =>
          rw [there, thereNew] at noneHere
          exact absurd (Or.inl (Path.covers_append [key] p)) (noneHere _ rfl)
      | some s =>
        cases thereNew : new.child? key with
        | none =>
          rw [there, thereNew] at noneHere
          exact absurd (Or.inl (Path.covers_append [key] p)) (noneHere _ rfl)
        | some u =>
          rw [there, thereNew] at noneHere
          refine ih (regular_hereditary.child hold there) (regular_hereditary.child hnew thereNew)
            fun d hd bears => ?_
          exact noneHere _ ⟨d, hd, rfl⟩ (bearsOn_cons_iff.2 bears)
    · -- a node that changes its kind is replaced with all that it holds
      have whole := changes_of_face_ne same
      rw [whole] at beside
      exact absurd (Or.inl rfl) (beside _ List.mem_cons_self)

/-! ## Changes in any order -/

/-- Without lists only a map has room for a write under a key, and nothing else in it changes. -/
theorem map_of_put {t u : Tree} (plain : t.Plain) {key : String} {p : Path} {v : Option Tree}
    (made : t.put (key :: p) v = .ok u) :
    ∃ fields c, t = .map fields ∧ u = .map (Dictionary.assign fields key c) := by
  cases t with
  | map fields =>
    have written := Schedule.putBelow_map (plain_map.1 plain).1 key p v
    rw [Schedule.putBelow_of_put made] at written
    exact ⟨fields, _, rfl, Option.some.inj written⟩
  | list items => exact absurd plain not_plain_list
  | null | bool | amount | text => cases v <;> cases p <;> cases made

/-- A change that is made leaves the place of one apart from it. -/
theorem exists_put_of_apart {t u : Tree} (plain : t.Plain) {p q : Path} (apart : p.Apart q)
    {v w : Option Tree} (made : t.put p v = .ok u) (first : ∃ x, t.put q w = .ok x) :
    ∃ x, u.put q w = .ok x := by
  induction p generalizing t u q with
  | nil => cases apart.1
  | cons key p ih =>
    cases q with
    | nil => cases apart.2
    | cons other q =>
      by_cases same : key = other
      · subst same
        have apartBelow := Path.apart_cons_iff.1 apart
        cases p with
        | nil => cases apartBelow.1
        | cons next p =>
          cases q with
          | nil => cases apartBelow.2
          | cons next' q =>
            obtain ⟨c, d, found, inner, rfl⟩ := put_cons_ok.1 made
            obtain ⟨x, firstHere⟩ := first
            obtain ⟨c', y, found', innerFirst, -⟩ := put_cons_ok.1 firstHere
            obtain rfl := Option.some.inj (found.symm.trans found')
            obtain ⟨z, done⟩ := ih (plain_hereditary.child plain found) apartBelow inner
              ⟨y, innerFirst⟩
            exact ⟨_, put_under (child?_replaceChild_self d (by rw [found]; rfl)) done⟩
      · obtain ⟨fields, c, rfl, rfl⟩ := map_of_put plain made
        obtain ⟨x, firstHere⟩ := first
        cases q with
        | nil => exact ⟨_, (step_assign _ other none w).made⟩
        | cons next q =>
          obtain ⟨d, y, found, inner, -⟩ := put_cons_ok.1 firstHere
          have stays : (Tree.map (Dictionary.assign fields key c)).child? other = some d :=
            (Dictionary.find?_assign_of_ne fields c same).trans found
          exact ⟨_, put_under stays inner⟩

/-- Changes that stand apart, each of which can be made at first. -/
structure AnyFirst (t : Tree) (cs : List Change) : Prop where
  plain : t.Plain
  values : ∀ c ∈ cs, PlainSlot c.new
  apart : ApartChanges cs
  made : ∀ c ∈ cs, ∃ u, t.put c.path c.new = .ok u

namespace AnyFirst

variable {t u : Tree} {c : Change} {cs ds : List Change}

theorem perm (h : AnyFirst t cs) (p : cs.Perm ds) : AnyFirst t ds where
  plain := h.plain
  values c hc := h.values c (p.mem_iff.2 hc)
  apart := p.pairwise h.apart Path.Apart.symm
  made c hc := h.made c (p.mem_iff.2 hc)

/-- Once one of the changes is made, each of the others can still be made. -/
theorem after (h : AnyFirst t (c :: cs)) (put : t.put c.path c.new = .ok u) : AnyFirst u cs where
  plain := plain_hereditary.put h.plain (h.values c List.mem_cons_self) put
  values d hd := h.values d (List.mem_cons_of_mem c hd)
  apart := (List.pairwise_cons.1 h.apart).2
  made d hd := exists_put_of_apart h.plain ((List.pairwise_cons.1 h.apart).1 d hd) put
    (h.made d (List.mem_cons_of_mem c hd))

theorem applyChanges_cons (put : t.put c.path c.new = .ok u) :
    t.applyChanges (c :: cs) = u.applyChanges cs := by
  simp [applyChanges, applyChange, put]

/-- Two of the changes can be made in either order. -/
theorem swap {d : Change} (h : AnyFirst t (c :: d :: cs)) :
    t.applyChanges (c :: d :: cs) = t.applyChanges (d :: c :: cs) := by
  obtain ⟨u, putC⟩ := h.made c List.mem_cons_self
  obtain ⟨w, putD⟩ := h.made d (List.mem_cons_of_mem c List.mem_cons_self)
  obtain ⟨x, putCD⟩ := (h.after putC).made d List.mem_cons_self
  obtain ⟨y, putDC⟩ := ((h.perm (.swap d c cs)).after putD).made c List.mem_cons_self
  have apart := (List.pairwise_cons.1 h.apart).1 d List.mem_cons_self
  have commute := Schedule.putBelow_comm (slot_some.2 h.plain) (h.values c List.mem_cons_self)
    (h.values d (List.mem_cons_of_mem c List.mem_cons_self)) apart.1 apart.2
  rw [Schedule.putBelow_of_put putC, Schedule.putBelow_of_put putCD, Schedule.putBelow_of_put putD,
    Schedule.putBelow_of_put putDC] at commute
  rw [applyChanges_cons putC, applyChanges_cons putCD, applyChanges_cons putD,
    applyChanges_cons putDC, Option.some.inj commute]

/-- The order of the changes does not matter. -/
theorem applyChanges_perm (h : AnyFirst t cs) (p : cs.Perm ds) :
    t.applyChanges cs = t.applyChanges ds := by
  induction p generalizing t with
  | nil => rfl
  | cons c _ ih =>
    obtain ⟨u, put⟩ := h.made c List.mem_cons_self
    rw [applyChanges_cons put, applyChanges_cons put, ih (h.after put)]
  | swap c d cs => exact h.swap
  | trans p _ ih ih' => rw [ih h, ih' (h.perm p)]

end AnyFirst

/-! ## The changes between two trees -/

/-- What lies between two trees without lists can be put into the first of them at once. -/
theorem Between.exists_put {old new : Tree} {c : Change} (h : Between old new c)
    (plain : old.Plain) : ∃ u, old.put c.path c.new = .ok u := by
  induction h with
  | whole => exact ⟨_, put_some_ok.2 rfl⟩
  | @added old new t key room =>
    cases old with
    | map fields => exact ⟨_, (step_assign fields key none (some t)).made⟩
    | list items => exact absurd plain not_plain_list
    | null | bool | amount | text => cases room
  | @removed old new t key there =>
    cases old with
    | map fields => exact ⟨_, (step_assign fields key none none).made⟩
    | list items => exact absurd plain not_plain_list
    | null | bool | amount | text => cases there
  | under before after _ ih =>
    obtain ⟨u, put⟩ := ih (plain_hereditary.child plain before)
    exact ⟨_, put_under before put⟩

theorem anyFirst_changes {old new : Tree} (hold : old.Plain) (hnew : new.Plain) :
    AnyFirst old (changes old new) where
  plain := hold
  values c hc := (hasSides_changes plain_ofParts old new hold hnew c hc).2
  apart := apart_changes old new hold.wellFormed hnew.wellFormed
  made c hc := (between_changes old new hold.regular hnew.regular c hc).exists_put hold

/-- The changes between two trees stand apart, each holds what either tree has at its path, where
none bears on a path both trees have the same, and without lists the changes lead to the second tree
in whatever order they are applied. -/
theorem changes_exact {old new : Tree} (hold : old.Regular) (hnew : new.Regular) :
    ApartChanges (changes old new) ∧
    (∀ c ∈ changes old new,
      c.old = old.get? c.path ∧ c.new = new.get? c.path ∧ c.old ≠ c.new) ∧
    (∀ p, (∀ c ∈ changes old new, ¬ c.BearsOn p) → old.get? p = new.get? p) ∧
    (old.NoLists → new.NoLists →
      ∀ cs, cs.Perm (changes old new) → old.applyChanges cs = (new, [])) := by
  refine ⟨apart_changes old new hold.wellFormed hnew.wellFormed, ?_, ?_, ?_⟩
  · intro c hc
    exact (between_changes old new hold hnew c hc).sides
  · intro p beside
    exact get?_eq_of_beside p hold hnew beside
  · intro noLists noListsNew cs p
    have first := anyFirst_changes ⟨hold.wellFormed, noLists⟩ ⟨hnew.wellFormed, noListsNew⟩
    rw [← first.applyChanges_perm p.symm]
    exact (leads_changes old new hold hnew).applyChanges_eq

/-- A table without lists whose seats change under keys that read as numbers, applied backward. -/
theorem changes_exact_seats :
    let old : Tree := .map [("pot", .amount default),
      ("seats", .map [("0", .map [("name", .text "ada")]), ("01", .null), ("1", .text "free")])]
    let new : Tree := .map [("blinds", .text "1/2"), ("pot", .map []),
      ("seats", .map [("0", .map [("bet", .null), ("name", .text "bob")]), ("1", .text "free")])]
    (changes old new).map (·.path) =
        [["pot"], ["seats", "0", "name"], ["seats", "0", "bet"], ["seats", "01"], ["blinds"]] ∧
      old.applyChanges (changes old new).reverse = (new, []) ∧
      old.get? ["seats", "1"] = new.get? ["seats", "1"] := by
  intro old new
  have hold : old.Regular := by decide +kernel
  have hnew : new.Regular := by decide +kernel
  obtain ⟨-, -, beside, anyOrder⟩ := changes_exact hold hnew
  refine ⟨by decide +kernel, ?_, beside _ (by decide +kernel)⟩
  exact anyOrder (by decide +kernel) (by decide +kernel) _ (List.reverse_perm _)

end Tree

end TableMotion
