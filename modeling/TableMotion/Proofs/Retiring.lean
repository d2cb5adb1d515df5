import TableMotion.Proofs.Values
import TableMotion.Proofs.WriteOrder

/-!
# Retiring transitions

A transition that is retired is folded into every older one that covers its path, and what lies
under it goes. In trees without lists that amounts to writing its finish last
(`writeAll_retire`), so retiring all transitions that are over, from the oldest to the newest,
keeps what the transitions write (`writeAll_settled`).
-/

namespace TableMotion

namespace Schedule

open TableMotion.Tree Transition

/-! ## One transition -/

theorem isShadowedBy_iff {g r : Transition} :
    isShadowedBy g r = true ↔ g.path.isAbove r.path = true ∧ r.Older g := by
  simp [isShadowedBy, Older]

theorem retire_cons (r : Transition) (rs : List Transition) (g : Transition) :
    retire (r :: rs) g =
      if isShadowedBy g r then retire rs g else handDown g r :: retire rs g := by
  unfold retire dropShadowed
  rw [List.filter_cons]
  cases isShadowedBy g r <;> rfl

theorem retire_append (rs ss : List Transition) (g : Transition) :
    retire (rs ++ ss) g = retire rs g ++ retire ss g := by
  simp [retire, dropShadowed]

/-- Nothing newer changes. -/
theorem retire_of_not_older {rs : List Transition} {g : Transition}
    (newer : ∀ r ∈ rs, ¬ r.Older g) : retire rs g = rs := by
  induction rs with
  | nil => rfl
  | cons r rs ih =>
    have notOlder := newer r List.mem_cons_self
    have stays : isShadowedBy g r = false := by
      rw [← Bool.not_eq_true, isShadowedBy_iff]
      intro h
      exact notOlder h.2
    rw [retire_cons, stays, handDown_of_not_older notOlder,
      ih fun x hx => newer x (List.mem_cons_of_mem r hx)]
    rfl

/-- What is left is an old transition with other ends. -/
theorem mem_retire {rs : List Transition} {g x : Transition} (h : x ∈ retire rs g) :
    ∃ r ∈ rs, isShadowedBy g r = false ∧ x = handDown g r := by
  obtain ⟨r, hr, rfl⟩ := List.mem_map.1 h
  obtain ⟨member, stays⟩ := List.mem_filter.1 hr
  exact ⟨r, member, by simpa using stays, rfl⟩

theorem pairwise_retire {rs : List Transition} (ordered : rs.Pairwise Older) (g : Transition) :
    (retire rs g).Pairwise Older := by
  refine List.pairwise_map.2 ((ordered.filter _).imp ?_)
  intro a b older
  exact (Older.congr (handDown_startTime g a) (handDown_id g a) (handDown_startTime g b)
    (handDown_id g b)).2 older

theorem DistinctIds.retire {rs : List Transition} (h : DistinctIds rs) (g : Transition) :
    DistinctIds (retire rs g) := by
  refine List.pairwise_map.2 ((List.Pairwise.filter _ h).imp ?_)
  intro a b different
  rwa [handDown_id, handDown_id]

/-- Retiring does not depend on the order of the others. -/
theorem byPrecedence_retire {rs : List Transition} (distinct : DistinctIds rs) (g : Transition) :
    byPrecedence (retire rs g) = retire (byPrecedence rs) g :=
  (eq_byPrecedence (pairwise_retire (pairwise_byPrecedence distinct) g)
    (((byPrecedence_perm rs).filter _).map _)).symm

theorem filter_retire {keep : Transition → Bool} {g : Transition}
    (same : ∀ r, keep (handDown g r) = keep r) (rs : List Transition) :
    (retire rs g).filter keep = retire (rs.filter keep) g := by
  unfold retire dropShadowed
  rw [List.filter_map, List.filter_filter, List.filter_filter]
  congr 1
  apply List.filter_congr
  intro r _
  rw [Function.comp_apply, same, Bool.and_comm]

/-! ## Several transitions -/

theorem foldl_retire_append (gone rs ss : List Transition) :
    gone.foldl retire (rs ++ ss) = gone.foldl retire rs ++ gone.foldl retire ss := by
  induction gone generalizing rs ss with
  | nil => rfl
  | cons g gone ih => rw [List.foldl_cons, retire_append, ih, List.foldl_cons, List.foldl_cons]

/-- Nothing newer than all of them changes. -/
theorem foldl_retire_of_not_older {gone rs : List Transition}
    (newer : ∀ g ∈ gone, ∀ r ∈ rs, ¬ r.Older g) : gone.foldl retire rs = rs := by
  induction gone with
  | nil => rfl
  | cons g gone ih =>
    rw [List.foldl_cons, retire_of_not_older (newer g List.mem_cons_self)]
    exact ih fun x hx => newer x (List.mem_cons_of_mem g hx)

/-- What folding keeps, retiring keeps. -/
theorem forall_foldl_retire {Q : Transition → Prop} {gone rs : List Transition}
    (keeps : ∀ g ∈ gone, ∀ r, Q r → Q (handDown g r)) (h : ∀ r ∈ rs, Q r) :
    ∀ r ∈ gone.foldl retire rs, Q r := by
  induction gone generalizing rs with
  | nil => exact h
  | cons g gone ih =>
    refine ih (fun x hx => keeps x (List.mem_cons_of_mem g hx)) fun x hx => ?_
    obtain ⟨r, hr, -, rfl⟩ := mem_retire hx
    exact keeps g List.mem_cons_self r (h r hr)

theorem byPrecedence_foldl_retire {rs : List Transition} (distinct : DistinctIds rs)
    (gone : List Transition) :
    byPrecedence (gone.foldl retire rs) = gone.foldl retire (byPrecedence rs) := by
  induction gone generalizing rs with
  | nil => rfl
  | cons g gone ih =>
    rw [List.foldl_cons, List.foldl_cons, ih (distinct.retire g), byPrecedence_retire distinct]

theorem filter_foldl_retire {keep : Transition → Bool} (same : ∀ g r, keep (handDown g r) = keep r)
    (gone rs : List Transition) :
    (gone.foldl retire rs).filter keep = gone.foldl retire (rs.filter keep) := by
  induction gone generalizing rs with
  | nil => rfl
  | cons g gone ih => rw [List.foldl_cons, List.foldl_cons, ih, filter_retire (same g)]

/-! ## What is written -/

/-- A value of transitions that takes up what is folded into them. -/
structure TakesFolds (value : Transition → Option Tree) : Prop where
  plain : ∀ {r : Transition}, r.PlainEnds → PlainSlot (value r)
  folds : ∀ {g h : Transition}, h.PlainEnds → h.Older g → ∀ {below : Path},
    g.path = h.path ++ below → value (handDown g h) = putBelow (value h) below g.finish

theorem takesFolds_valueAt (time : Binary64) : TakesFolds (·.valueAt time) where
  plain ends := ends.valueAt time
  folds ends older _ covered := valueAt_handDown ends older covered time

theorem takesFolds_finish : TakesFolds (·.finish) where
  plain ends := ends.finish
  folds _ older _ covered := congrArg (·.finish) (handDown_eq older covered)

variable {value : Transition → Option Tree}

/-- After the retired write has been made, each further write keeps it made last. -/
theorem writeAll_retire_after (takes : TakesFolds value) {g : Transition}
    (hg : PlainSlot g.finish) {rs : List Transition} (ends : ∀ r ∈ rs, r.PlainEnds)
    (older : ∀ r ∈ rs, r.Older g) {s : Option Tree} (hs : PlainSlot s) :
    writeAll value (putBelow s g.path g.finish) (retire rs g) =
      putBelow (writeAll value s rs) g.path g.finish := by
  induction rs generalizing s with
  | nil => rfl
  | cons r rs ih =>
    have plainR : PlainSlot (value r) := takes.plain (ends r List.mem_cons_self)
    have olderR := older r List.mem_cons_self
    have rest := ih (fun x hx => ends x (List.mem_cons_of_mem r hx))
      (fun x hx => older x (List.mem_cons_of_mem r hx))
      (hs.putBelow plainR r.path)
    rw [retire_cons, writeAll_cons]
    by_cases shadowed : isShadowedBy g r = true
    · -- `r` lies under `g`: dropping it and writing it before `g` come to the same
      obtain ⟨key, more, below⟩ := Path.isAbove_iff.1 (isShadowedBy_iff.1 shadowed).1
      rw [if_pos shadowed, ← rest, below, putBelow_hides hs plainR]
    · rw [if_neg shadowed, writeAll_cons, handDown_path, ← rest]
      by_cases covers : r.path.covers g.path = true
      · -- `r` covers `g`: it writes what `g` would change in it
        obtain ⟨below, split⟩ := Path.covers_iff.1 covers
        rw [takes.folds (ends r List.mem_cons_self) olderR split, split, putBelow_hides hs hg,
          putBelow_append hs plainR]
      · rw [handDown_of_not_covers (by simpa using covers)]
        have notUnder : g.path.covers r.path = false := by
          rw [← Bool.not_eq_true, Path.covers_iff_eq_or_isAbove]
          rintro (same | above)
          · exact covers (Path.covers_iff_eq_or_isAbove.2 (Or.inl same.symm))
          · exact shadowed (isShadowedBy_iff.2 ⟨above, olderR⟩)
        rw [putBelow_comm hs hg plainR notUnder (by simpa using covers)]

/-- A retired root: up to the first root of the others the two runs differ, but that root replaces
everything. -/
theorem writeAll_retire_root (takes : TakesFolds value) {g : Transition}
    (hg : PlainSlot g.finish) (atRoot : g.path = Path.root) {rs : List Transition}
    (ends : ∀ r ∈ rs, r.PlainEnds) (older : ∀ r ∈ rs, r.Older g)
    (root : ∃ b ∈ rs, b.path = Path.root) {s : Option Tree} (hs : PlainSlot s)
    (u : Option Tree) :
    writeAll value u (retire rs g) = putBelow (writeAll value s rs) g.path g.finish := by
  induction rs generalizing s with
  | nil =>
    obtain ⟨b, hb, -⟩ := root
    cases hb
  | cons r rs ih =>
    have endsR := ends r List.mem_cons_self
    have olderR := older r List.mem_cons_self
    have endsRest : ∀ x ∈ rs, x.PlainEnds := fun x hx => ends x (List.mem_cons_of_mem r hx)
    have olderRest : ∀ x ∈ rs, x.Older g := fun x hx => older x (List.mem_cons_of_mem r hx)
    rw [retire_cons, writeAll_cons]
    cases path : r.path with
    | nil =>
      -- the first root
      have stays : isShadowedBy g r = false := by
        simp [isShadowedBy, Path.isAbove, path]
      have split : g.path = r.path ++ [] := by
        rw [atRoot, path]
        rfl
      have after := writeAll_retire_after takes hg endsRest olderRest (takes.plain endsR)
      rw [atRoot] at after ⊢
      rw [stays, if_neg Bool.false_ne_true, writeAll_cons, handDown_path, path,
        takes.folds endsR olderR split, putBelow_root, putBelow_root, putBelow_root, ← after]
      rfl
    | cons key rest =>
      have above : g.path.isAbove r.path = true := by
        rw [atRoot, path]
        exact Path.isAbove_iff.2 ⟨key, rest, rfl⟩
      have goes : isShadowedBy g r = true := isShadowedBy_iff.2 ⟨above, olderR⟩
      have rootRest : ∃ b ∈ rs, b.path = Path.root := by
        obtain ⟨b, hb, atRootB⟩ := root
        rcases List.mem_cons.1 hb with rfl | hb
        · rw [path] at atRootB
          cases atRootB
        · exact ⟨b, hb, atRootB⟩
      rw [goes, if_pos rfl]
      apply ih endsRest olderRest rootRest
      exact hs.putBelow (takes.plain endsR) (key :: rest)

/-- Retiring a transition from older ones, a root among them, is writing its finish last. -/
theorem writeAll_retire (takes : TakesFolds value) {g : Transition} (hg : PlainSlot g.finish)
    {rs : List Transition} (ends : ∀ r ∈ rs, r.PlainEnds) (older : ∀ r ∈ rs, r.Older g)
    (root : ∃ b ∈ rs, b.path = Path.root) :
    writeAll value none (retire rs g) = putBelow (writeAll value none rs) g.path g.finish := by
  by_cases atRoot : g.path = Path.root
  · exact writeAll_retire_root takes hg atRoot ends older root slot_none none
  · obtain ⟨key, rest, below⟩ := List.exists_cons_of_ne_nil atRoot
    have nothing : putBelow none g.path g.finish = none := by rw [below, putBelow_none]
    have step := writeAll_retire_after takes hg ends older slot_none
    rwa [nothing] at step

/-! ## All transitions that are over -/

/-- The next transition: one that is over is retired, any other stays. -/
def settleNext (time : Binary64) (left : List Transition) (r : Transition) : List Transition :=
  if r.isOverBefore time then retire left r else left ++ [r]

/-- What is left of transitions, taken from the oldest to the newest. -/
def settled (time : Binary64) (rs : List Transition) : List Transition :=
  rs.foldl (settleNext time) []

/-- Transitions that are taken already, with those still to come, go from the oldest to the newest
and have plain ends. -/
structure Settling (left rest : List Transition) : Prop where
  ordered : (left ++ rest).Pairwise Older
  ends : ∀ r ∈ left ++ rest, r.PlainEnds

theorem pairwise_settleNext {left rest : List Transition} {r : Transition}
    (h : (left ++ r :: rest).Pairwise Older) (time : Binary64) :
    (settleNext time left r ++ rest).Pairwise Older := by
  unfold settleNext
  split
  · have dropped := h.sublist ((List.Sublist.refl left).append (List.sublist_cons_self r rest))
    obtain ⟨orderedLeft, orderedRest, apart⟩ := List.pairwise_append.1 dropped
    refine List.pairwise_append.2 ⟨pairwise_retire orderedLeft r, orderedRest, ?_⟩
    intro a ha b hb
    obtain ⟨x, hx, -, rfl⟩ := mem_retire ha
    exact (older_handDown_iff r x b).2 (apart x hx b hb)
  · rwa [List.append_assoc]

theorem Settling.next {left rest : List Transition} {r : Transition}
    (h : Settling left (r :: rest)) (time : Binary64) :
    Settling (settleNext time left r) rest := by
  refine ⟨pairwise_settleNext h.ordered time, ?_⟩
  intro a ha
  have plainR := h.ends r (List.mem_append_right left List.mem_cons_self)
  rcases List.mem_append.1 ha with ha | ha
  · unfold settleNext at ha
    split at ha
    · obtain ⟨x, hx, -, rfl⟩ := mem_retire ha
      exact plainEnds_handDown plainR.finish (h.ends x (List.mem_append_left _ hx))
    · rcases List.mem_append.1 ha with ha | ha
      · exact h.ends a (List.mem_append_left _ ha)
      · rwa [List.mem_singleton.1 ha]
  · exact h.ends a (List.mem_append_right left (List.mem_cons_of_mem r ha))

theorem Settling.foldl {left rest more : List Transition} (h : Settling left (rest ++ more))
    (time : Binary64) : Settling (rest.foldl (settleNext time) left) more := by
  induction rest generalizing left with
  | nil => exact h
  | cons r rest ih => exact ih (h.next time)

/-- Retiring the transitions that are over from the others is taking all of them in turn. -/
theorem foldl_retire_eq (left : List Transition) {rest : List Transition}
    (ordered : (left ++ rest).Pairwise Older) (time : Binary64) :
    (rest.filter (·.isOverBefore time)).foldl retire
        (left ++ rest.filter fun r => !r.isOverBefore time) =
      rest.foldl (settleNext time) left := by
  induction rest generalizing left with
  | nil => simp
  | cons r rest ih =>
    have step := ih _ (pairwise_settleNext ordered time)
    rw [List.foldl_cons, ← step]
    by_cases ended : r.isOverBefore time = true
    · have newer := (List.pairwise_cons.1 (List.pairwise_append.1 ordered).2.1).1
      have kept : retire (rest.filter fun x => !x.isOverBefore time) r =
          rest.filter fun x => !x.isOverBefore time :=
        retire_of_not_older fun x hx => (newer x (List.mem_filter.1 hx).1).asymm
      simp [settleNext, ended, retire_append, kept]
    · simp [settleNext, ended]

/-- Pruning takes transitions in turn that stand from the oldest to the newest. -/
theorem prune_transitions {s : Schedule} (ordered : s.transitions.Pairwise Older)
    (time : Binary64) : (s.prune time).transitions = settled time s.transitions := by
  rw [prune_transitions_foldl, byPrecedence_of_pairwise (ordered.filter _)]
  exact foldl_retire_eq [] ordered time

theorem prune_of_nil {s : Schedule} (nothing : s.transitions = []) (time : Binary64) :
    (s.prune time).transitions = [] := by
  have ordered : s.transitions.Pairwise Older := by
    rw [nothing]
    exact List.Pairwise.nil
  rw [prune_transitions ordered, nothing]
  rfl

/-- What folding keeps, pruning keeps. -/
theorem forall_prune {Q : Transition → Prop} {s : Schedule}
    (keeps : ∀ g ∈ s.transitions, ∀ r, Q r → Q (handDown g r)) (h : ∀ r ∈ s.transitions, Q r)
    (time : Binary64) : ∀ r ∈ (s.prune time).transitions, Q r := by
  rw [prune_transitions_foldl]
  apply forall_foldl_retire
  · intro g hg
    exact keeps g (List.mem_filter.1 (mem_byPrecedence.1 hg)).1
  · intro r hr
    exact h r (List.mem_filter.1 hr).1

theorem forall_settled {Q : Transition → Prop} {rs : List Transition}
    (keeps : ∀ g ∈ rs, ∀ r, Q r → Q (handDown g r)) (h : ∀ r ∈ rs, Q r) (time : Binary64) :
    ∀ r ∈ settled time rs, Q r := by
  have taken : ∀ (rest left : List Transition), (∀ g ∈ rest, g ∈ rs) → (∀ r ∈ left, Q r) →
      ∀ r ∈ rest.foldl (settleNext time) left, Q r := by
    intro rest
    induction rest with
    | nil => exact fun left _ hleft => hleft
    | cons g rest ih =>
      intro left members hleft
      refine ih _ (fun x hx => members x (List.mem_cons_of_mem g hx)) ?_
      have member := members g List.mem_cons_self
      unfold settleNext
      split
      · intro x hx
        obtain ⟨r, hr, -, rfl⟩ := mem_retire hx
        exact keeps g member r (hleft r hr)
      · intro x hx
        rcases List.mem_append.1 hx with hx | hx
        · exact hleft x hx
        · rw [List.mem_singleton.1 hx]
          exact h g member
  exact taken rs [] (fun g hg => hg) (by simp)

/-- In the order of precedence pruning takes all transitions in turn. -/
theorem byPrecedence_prune {s : Schedule} (distinct : DistinctIds s.transitions)
    (time : Binary64) :
    byPrecedence (s.prune time).transitions = settled time (byPrecedence s.transitions) := by
  have ordered : ([] ++ byPrecedence s.transitions).Pairwise Older :=
    pairwise_byPrecedence distinct
  rw [prune_transitions_foldl, settled, ← foldl_retire_eq [] ordered,
    ← byPrecedence_filter distinct, ← byPrecedence_filter distinct]
  exact byPrecedence_foldl_retire (distinct.filter _) _

/-- What does not look at the ends of a transition can be filtered before or after, if it keeps
those that are over. -/
theorem filter_settled {keep : Transition → Bool} {time : Binary64}
    (same : ∀ g r, keep (handDown g r) = keep r) {rs : List Transition}
    (ended : ∀ r ∈ rs, r.isOverBefore time = true → keep r = true) :
    (settled time rs).filter keep = settled time (rs.filter keep) := by
  have moved : ∀ left, (rs.foldl (settleNext time) left).filter keep =
      (rs.filter keep).foldl (settleNext time) (left.filter keep) := by
    induction rs with
    | nil => exact fun left => rfl
    | cons r rs ih =>
      intro left
      rw [List.foldl_cons, ih fun x hx => ended x (List.mem_cons_of_mem r hx)]
      by_cases isOver : r.isOverBefore time = true
      · have kept := ended r List.mem_cons_self isOver
        simp [settleNext, isOver, kept, filter_retire (same r)]
      · by_cases kept : keep r = true
        · simp [settleNext, isOver, kept]
        · simp [settleNext, isOver, kept]
  exact moved []

theorem mem_settleNext_root {left : List Transition} (time : Binary64) (r : Transition)
    (root : ∃ b ∈ left, b.path = Path.root) :
    ∃ b ∈ settleNext time left r, b.path = Path.root := by
  obtain ⟨b, hb, atRoot⟩ := root
  unfold settleNext
  split
  · refine ⟨handDown r b, List.mem_map_of_mem (List.mem_filter.2 ⟨hb, ?_⟩), ?_⟩
    · simp [isShadowedBy, Path.isAbove, atRoot, Path.root]
    · rw [handDown_path, atRoot]
  · exact ⟨b, List.mem_append_left [r] hb, atRoot⟩

/-- Once a root is among them, taking the rest in turn keeps what is written. -/
theorem writeAll_foldl_settleNext (takes : TakesFolds value) {time : Binary64}
    {left rest : List Transition} (h : Settling left rest)
    (ended : ∀ r ∈ rest, r.isOverBefore time = true → value r = r.finish)
    (root : ∃ b ∈ left, b.path = Path.root) :
    writeAll value none (rest.foldl (settleNext time) left) =
      writeAll value none (left ++ rest) := by
  induction rest generalizing left with
  | nil => simp
  | cons r rest ih =>
    have overRest := fun x hx => ended x (List.mem_cons_of_mem r hx)
    rw [List.foldl_cons, ih (h.next time) overRest (mem_settleNext_root time r root),
      writeAll_append, writeAll_append, writeAll_cons]
    congr 1
    unfold settleNext
    split
    · rename_i isOver
      have ends : ∀ x ∈ left, x.PlainEnds := fun x hx => h.ends x (List.mem_append_left _ hx)
      have older : ∀ x ∈ left, x.Older r := by
        intro x hx
        exact (List.pairwise_append.1 h.ordered).2.2 x hx r List.mem_cons_self
      have plainR := h.ends r (List.mem_append_right left List.mem_cons_self)
      rw [writeAll_retire takes plainR.finish ends older root, ended r List.mem_cons_self isOver]
    · exact writeAll_snoc ..

theorem writeAll_from_root {b : Transition} (atRoot : b.path = Path.root) (s : Option Tree)
    (rs ss : List Transition) :
    writeAll value s (rs ++ b :: ss) = writeAll value (value b) ss := by
  rw [writeAll_append, writeAll_cons, atRoot]
  exact congrArg (writeAll value · ss) (putBelow_root ..)

/-- Retiring what is over keeps what is written, if a root stays. -/
theorem writeAll_settled (takes : TakesFolds value) {time : Binary64} {rs : List Transition}
    (ordered : rs.Pairwise Older) (ends : ∀ r ∈ rs, r.PlainEnds)
    (ended : ∀ r ∈ rs, r.isOverBefore time = true → value r = r.finish)
    (root : ∃ b ∈ rs, b.path = Path.root ∧ b.isOverBefore time = false) :
    writeAll value none (settled time rs) = writeAll value none rs := by
  -- up to the root that stays nothing counts, since that root replaces all; from there on each
  -- transition is settled among others that hold a root
  obtain ⟨b, hb, atRoot, stays⟩ := root
  obtain ⟨before, behind, rfl⟩ := List.append_of_mem hb
  have start : Settling [] (before ++ b :: behind) := ⟨ordered, ends⟩
  have reached := (start.foldl time).next time
  have appended : settleNext time (before.foldl (settleNext time) []) b =
      before.foldl (settleNext time) [] ++ [b] := by
    simp [settleNext, stays]
  rw [appended] at reached
  have rootIn : ∃ x ∈ before.foldl (settleNext time) [] ++ [b], x.path = Path.root :=
    ⟨b, List.mem_append_right _ List.mem_cons_self, atRoot⟩
  have overBehind := fun x hx =>
    ended x (List.mem_append_right before (List.mem_cons_of_mem b hx))
  rw [settled, List.foldl_append, List.foldl_cons, appended,
    writeAll_foldl_settleNext takes reached overBehind rootIn, List.append_assoc,
    List.singleton_append, writeAll_from_root atRoot, writeAll_from_root atRoot]

end Schedule

end TableMotion
