import Mathlib.Data.List.Induction
import TableMotion.Proofs.Accounting
import TableMotion.Proofs.Faces
import TableMotion.Proofs.Outranking

/-!
# Pruning again

Pruning early and once more later leaves what the later pruning alone leaves
(`prune_prune_edits`), as long as the schedule holds no lists. The early pruning folds what is over
by then into transitions that go later, or drops these. Either way, retiring what is left of them
comes to the same as if each had been retired in its turn (`foldl_retire_retire`).
-/

namespace TableMotion

/-! ## Folding two transitions into one -/

namespace Transition

/-- `h` takes up what `g` leads to. -/
def TakesUp (h g : Transition) : Prop := h.Older g ∧ h.path.covers g.path = true

instance (h g : Transition) : Decidable (h.TakesUp g) := inferInstanceAs (Decidable (_ ∧ _))

end Transition

namespace Schedule

open TableMotion.Tree Transition

variable {c r x : Transition} {p q : Path}

@[simp] theorem handDown_takesUp_iff (g h r : Transition) :
    (handDown g h).TakesUp r ↔ h.TakesUp r := by
  rw [TakesUp, TakesUp, older_handDown_iff, handDown_path]

@[simp] theorem takesUp_handDown_iff (g h r : Transition) :
    r.TakesUp (handDown g h) ↔ r.TakesUp h := by
  rw [TakesUp, TakesUp, handDown_path,
    Older.congr rfl rfl (handDown_startTime g h) (handDown_id g h)]

theorem handDown_of_not_takesUp {g h : Transition} (no : ¬ h.TakesUp g) : handDown g h = h := by
  by_cases older : h.Older g
  · exact handDown_of_not_covers (by simpa using fun covers => no ⟨older, covers⟩)
  · exact handDown_of_not_older older

/-- What one takes up is written in its turn. -/
theorem handDown_handDown_eq (takesC : r.TakesUp c) (takesX : r.TakesUp x)
    (splitC : c.path = r.path ++ p) (splitX : x.path = r.path ++ q) :
    handDown x (handDown c r) = { r with
      start := putBelow (putBelow r.start p c.finish) q x.finish
      finish := putBelow (putBelow r.finish p c.finish) q x.finish } := by
  have splitX' : x.path = (handDown c r).path ++ q := by rw [handDown_path, splitX]
  rw [handDown_eq ((older_handDown_iff c r x).2 takesX.1) splitX', handDown_eq takesC.1 splitC]

/-- Transitions that lie apart can be folded in either order. -/
theorem handDown_comm (apart : c.path.covers x.path = false) (apart' : x.path.covers c.path = false)
    (finishC : PlainSlot c.finish) (finishX : PlainSlot x.finish) (ends : r.PlainEnds) :
    handDown c (handDown x r) = handDown x (handDown c r) := by
  by_cases takesC : r.TakesUp c
  · by_cases takesX : r.TakesUp x
    · obtain ⟨p, splitC⟩ := Path.covers_iff.1 takesC.2
      obtain ⟨q, splitX⟩ := Path.covers_iff.1 takesX.2
      rw [splitC, splitX, Path.append_covers_append] at apart apart'
      rw [handDown_handDown_eq takesX takesC splitX splitC,
        handDown_handDown_eq takesC takesX splitC splitX,
        putBelow_comm ends.start finishX finishC apart' apart,
        putBelow_comm ends.finish finishX finishC apart' apart]
    · have takesX' : ¬ (handDown c r).TakesUp x := by simpa using takesX
      rw [handDown_of_not_takesUp takesX, handDown_of_not_takesUp takesX']
  · have takesC' : ¬ (handDown x r).TakesUp c := by simpa using takesC
    rw [handDown_of_not_takesUp takesC, handDown_of_not_takesUp takesC']

/-- What `c` takes up of `x` it hands down itself. -/
theorem handDown_handDown_of_takesUp (takes : c.TakesUp x) (endsC : c.PlainEnds)
    (finishX : PlainSlot x.finish) (ends : r.PlainEnds) :
    handDown (handDown x c) (handDown x r) = handDown x (handDown c r) := by
  by_cases takesC : r.TakesUp c
  · have takesX : r.TakesUp x :=
      ⟨takesC.1.trans takes.1, Path.covers_trans takesC.2 takes.2⟩
    obtain ⟨p, splitC⟩ := Path.covers_iff.1 takesC.2
    obtain ⟨q, splitX⟩ := Path.covers_iff.1 takes.2
    have splitRX : x.path = r.path ++ (p ++ q) := by rw [splitX, splitC, List.append_assoc]
    have splitRC : (handDown x c).path = r.path ++ p := by rw [handDown_path, splitC]
    have finish : (handDown x c).finish = putBelow c.finish q x.finish := by
      rw [handDown_eq takes.1 splitX]
    rw [handDown_handDown_eq takesX (by simpa using takesC) splitRX splitRC,
      handDown_handDown_eq takesC takesX splitC splitRX, finish,
      putBelow_hides ends.start finishX, putBelow_hides ends.finish finishX,
      putBelow_append ends.start endsC.finish, putBelow_append ends.finish endsC.finish]
  · have takesC' : ¬ (handDown x r).TakesUp (handDown x c) := by simpa using takesC
    rw [handDown_of_not_takesUp takesC, handDown_of_not_takesUp takesC']

/-- What lies under the next one need not be folded before it. -/
theorem handDown_handDown_of_isShadowedBy (shadowed : isShadowedBy x c = true)
    (stays : isShadowedBy x r = false) (finishC : PlainSlot c.finish) (ends : r.PlainEnds) :
    handDown x (handDown c r) = handDown x r := by
  obtain ⟨above, older⟩ := isShadowedBy_iff.1 shadowed
  by_cases takesC : r.TakesUp c
  · have olderX := takesC.1.trans older
    -- `r` and `x` both lie on the path of `c`, and `r` not under `x`
    have covers : r.path.covers x.path = true := by
      rcases Path.covers_or_covers takesC.2 (Path.covers_of_isAbove above) with covers | under
      · exact covers
      · rcases Path.covers_iff_eq_or_isAbove.1 under with same | above
        · rw [same]
          exact Path.covers_self _
        · rw [isShadowedBy_iff.2 ⟨above, olderX⟩] at stays
          cases stays
    obtain ⟨q, splitX⟩ := Path.covers_iff.1 covers
    obtain ⟨key, rest, splitC⟩ := Path.isAbove_iff.1 above
    rw [splitX, List.append_assoc] at splitC
    rw [handDown_handDown_eq takesC ⟨olderX, covers⟩ splitC splitX, handDown_eq olderX splitX,
      putBelow_hides ends.start finishC, putBelow_hides ends.finish finishC]
  · rw [handDown_of_not_takesUp takesC]

/-- Unless `c` lies under `x`, folding `x` into it first comes to the same as folding `x` last. -/
theorem handDown_handDown (older : c.Older x) (stays : isShadowedBy x c = false)
    (endsC : c.PlainEnds) (finishX : PlainSlot x.finish) (ends : r.PlainEnds) :
    handDown (handDown x c) (handDown x r) = handDown x (handDown c r) := by
  by_cases takes : c.TakesUp x
  · exact handDown_handDown_of_takesUp takes endsC finishX ends
  · have apart : c.path.covers x.path = false := by simpa using fun covers => takes ⟨older, covers⟩
    have apart' : x.path.covers c.path = false := by
      rw [← Bool.not_eq_true, Path.covers_iff_eq_or_isAbove]
      rintro (same | above)
      · rw [same, Path.covers_self] at apart
        cases apart
      · rw [isShadowedBy_iff.2 ⟨above, older⟩] at stays
        cases stays
    rw [handDown_of_not_takesUp takes]
    exact handDown_comm apart apart' endsC.finish finishX ends

/-! ## Retiring two transitions -/

theorem isShadowedBy_trans (h : isShadowedBy x c = true) (k : isShadowedBy c r = true) :
    isShadowedBy x r = true := by
  obtain ⟨aboveC, olderC⟩ := isShadowedBy_iff.1 h
  obtain ⟨aboveR, olderR⟩ := isShadowedBy_iff.1 k
  exact isShadowedBy_iff.2 ⟨Path.isAbove_trans aboveC aboveR, olderR.trans olderC⟩

theorem isShadowedBy_handDown_left (x c r : Transition) :
    isShadowedBy (handDown x c) r = isShadowedBy c r := by
  rw [Bool.eq_iff_iff, isShadowedBy_iff, isShadowedBy_iff, handDown_path,
    Older.congr rfl rfl (handDown_startTime x c) (handDown_id x c)]

variable {rs cs ws : List Transition}

/-- What lies under the next one to go need not be retired before it. -/
theorem retire_retire_of_isShadowedBy (shadowed : isShadowedBy x c = true)
    (finishC : PlainSlot c.finish) (ends : ∀ r ∈ rs, r.PlainEnds) :
    retire (retire rs c) x = retire rs x := by
  induction rs with
  | nil => rfl
  | cons r rs ih =>
    have rest := ih fun y hy => ends y (List.mem_cons_of_mem r hy)
    rw [retire_cons, retire_cons]
    cases underX : isShadowedBy x r with
    | true =>
      rw [if_pos rfl, ← rest]
      split
      · rfl
      · rw [retire_cons, isShadowedBy_handDown, underX, if_pos rfl]
    | false =>
      have notUnderC : isShadowedBy c r = false := by
        rw [← Bool.not_eq_true]
        intro underC
        rw [isShadowedBy_trans shadowed underC] at underX
        cases underX
      rw [notUnderC, if_neg Bool.false_ne_true, if_neg Bool.false_ne_true, retire_cons,
        isShadowedBy_handDown, underX, if_neg Bool.false_ne_true, rest,
        handDown_handDown_of_isShadowedBy shadowed underX finishC (ends r List.mem_cons_self)]

/-- Unless `c` lies under `x`, retiring `x` before `c`, and from `c` too, comes to the same as
retiring it after. -/
theorem retire_retire_handDown (older : c.Older x) (stays : isShadowedBy x c = false)
    (endsC : c.PlainEnds) (finishX : PlainSlot x.finish) (ends : ∀ r ∈ rs, r.PlainEnds) :
    retire (retire rs x) (handDown x c) = retire (retire rs c) x := by
  induction rs with
  | nil => rfl
  | cons r rs ih =>
    have rest := ih fun y hy => ends y (List.mem_cons_of_mem r hy)
    have folded := handDown_handDown older stays endsC finishX (ends r List.mem_cons_self)
    rw [retire_cons, retire_cons]
    cases underX : isShadowedBy x r <;> cases underC : isShadowedBy c r <;>
      simp [retire_cons, isShadowedBy_handDown, isShadowedBy_handDown_left, underX, underC, rest,
        folded]

/-- Retiring `x` last comes to the same as retiring it first, from the others too. -/
theorem foldl_retire_retire (older : ∀ c ∈ cs, c.Older x) (endsC : ∀ c ∈ cs, c.PlainEnds)
    (finishX : PlainSlot x.finish) (ends : ∀ r ∈ rs, r.PlainEnds) :
    (retire cs x).foldl retire (retire rs x) = retire (cs.foldl retire rs) x := by
  induction cs generalizing rs with
  | nil => rfl
  | cons c cs ih =>
    have endsHead := endsC c List.mem_cons_self
    have left : ∀ r ∈ retire rs c, r.PlainEnds := by
      intro y hy
      obtain ⟨r, hr, -, rfl⟩ := mem_retire hy
      exact plainEnds_handDown endsHead.finish (ends r hr)
    have rest := ih (fun y hy => older y (List.mem_cons_of_mem c hy))
      (fun y hy => endsC y (List.mem_cons_of_mem c hy)) left
    rw [List.foldl_cons, ← rest, retire_cons]
    cases shadowed : isShadowedBy x c with
    | true => rw [if_pos rfl, retire_retire_of_isShadowedBy shadowed endsHead.finish ends]
    | false =>
      rw [if_neg Bool.false_ne_true, List.foldl_cons,
        retire_retire_handDown (older c List.mem_cons_self) shadowed endsHead finishX ends]

/-- Of transitions that go one after another some may go first, from the others too. -/
theorem foldl_retire_filter (ordered : ws.Pairwise Older) (endsW : ∀ w ∈ ws, w.PlainEnds)
    (ends : ∀ r ∈ rs, r.PlainEnds) (first : Transition → Bool) :
    ((ws.filter first).foldl retire (ws.filter fun w => !first w)).foldl retire
        ((ws.filter first).foldl retire rs) =
      ws.foldl retire rs := by
  induction ws using List.reverseRecOn with
  | nil => rfl
  | append_singleton ws x ih =>
    obtain ⟨orderedW, -, older⟩ := List.pairwise_append.1 ordered
    replace older : ∀ w ∈ ws, w.Older x := fun w hw => older w hw x (List.mem_singleton_self x)
    replace endsW : x.PlainEnds ∧ ∀ w ∈ ws, w.PlainEnds :=
      ⟨endsW x (List.mem_append_right ws (List.mem_singleton_self x)),
        fun w hw => endsW w (List.mem_append_left [x] hw)⟩
    have before := ih orderedW endsW.2
    rw [List.foldl_append, List.foldl_cons, List.foldl_nil, ← before]
    have folds : ∀ w ∈ ws.filter first, ∀ r : Transition, r.PlainEnds → (handDown w r).PlainEnds :=
      fun w hw r hr => plainEnds_handDown (endsW.2 w (List.mem_filter.1 hw).1).finish hr
    cases goesFirst : first x with
    | true =>
      -- `x` is the newest of all that go, those that go first included
      have olderLeft : ∀ c ∈ (ws.filter first).foldl retire (ws.filter fun w => !first w),
          c.Older x := by
        apply forall_foldl_retire
        · intro w _ r hr
          rwa [older_handDown_iff]
        · exact fun r hr => older r (List.mem_filter.1 hr).1
      have endsLeft : ∀ c ∈ (ws.filter first).foldl retire (ws.filter fun w => !first w),
          c.PlainEnds :=
        forall_foldl_retire folds fun r hr => endsW.2 r (List.mem_filter.1 hr).1
      have all := foldl_retire_retire olderLeft endsLeft endsW.1.finish
        (forall_foldl_retire folds ends)
      simpa [goesFirst] using all
    | false =>
      have stays : (ws.filter first).foldl retire [x] = [x] := by
        apply foldl_retire_of_not_older
        intro w hw r hr
        rw [List.mem_singleton.1 hr]
        exact (older w (List.mem_filter.1 hw).1).asymm
      simp [goesFirst, foldl_retire_append, stays]

/-! ## Pruning -/

variable {s : Schedule} {earlier later : Binary64}

theorem isOverBefore_mono (le : earlier ≤ later) (h : r.isOverBefore earlier = true) :
    r.isOverBefore later = true := by
  simp only [isOverBefore, Bool.and_eq_true, decide_eq_true_eq] at h ⊢
  obtain ⟨ends, isNumber, -, less⟩ := h
  exact ⟨ends, isNumber, le.2.1, Int.lt_of_lt_of_le less le.2.2⟩

theorem isOverBefore_handDown (time : Binary64) (g h : Transition) :
    (handDown g h).isOverBefore time = h.isOverBefore time := by
  simp [isOverBefore, isEndless]

theorem filter_prune (s : Schedule) (time : Binary64) (keep : Transition → Bool)
    (same : ∀ g r, keep (handDown g r) = keep r) :
    (s.prune time).transitions.filter keep =
      (byPrecedence (s.transitions.filter (·.isOverBefore time))).foldl retire
        (s.transitions.filter fun r => keep r && !r.isOverBefore time) := by
  rw [prune_transitions_foldl, ← List.filter_filter]
  exact filter_foldl_retire same _ _

theorem prune_prune_transitions (distinct : DistinctIds s.transitions)
    (ends : ∀ r ∈ s.transitions, r.PlainEnds)
    (mono : ∀ r : Transition, r.isOverBefore earlier = true → r.isOverBefore later = true) :
    ((s.prune earlier).prune later).transitions = (s.prune later).transitions := by
  let gone := byPrecedence (s.transitions.filter (·.isOverBefore later))
  let kept := s.transitions.filter fun r => !r.isOverBefore later
  have distinctOver : DistinctIds (s.transitions.filter (·.isOverBefore later)) :=
    distinct.filter _
  have members : ∀ w ∈ gone, w ∈ s.transitions := fun w hw =>
    (List.mem_filter.1 (mem_byPrecedence.1 hw)).1
  have part (test : Transition → Bool) : gone.filter test =
      byPrecedence (s.transitions.filter fun r => r.isOverBefore later && test r) := by
    rw [← byPrecedence_filter distinctOver, List.filter_filter]
    congr 2
    funext r
    exact Bool.and_comm ..
  have early : s.transitions.filter (·.isOverBefore earlier) =
      s.transitions.filter fun r => r.isOverBefore later && r.isOverBefore earlier :=
    List.filter_congr fun r _ => by grind
  have stays : (s.transitions.filter fun r => !r.isOverBefore later && !r.isOverBefore earlier) =
      kept :=
    List.filter_congr fun r _ => by grind
  have distinctNext : DistinctIds
      (s.transitions.filter fun r => r.isOverBefore later && !r.isOverBefore earlier) :=
    distinct.filter _
  calc ((s.prune earlier).prune later).transitions
      = (byPrecedence ((s.prune earlier).transitions.filter (·.isOverBefore later))).foldl retire
          ((s.prune earlier).transitions.filter fun r => !r.isOverBefore later) :=
        prune_transitions_foldl ..
    _ = ((gone.filter (·.isOverBefore earlier)).foldl retire
          (gone.filter fun r => !r.isOverBefore earlier)).foldl retire
            ((gone.filter (·.isOverBefore earlier)).foldl retire kept) := by
        rw [filter_prune s earlier (·.isOverBefore later) (isOverBefore_handDown later),
          filter_prune s earlier (fun r => !r.isOverBefore later)
            (fun g r => by rw [isOverBefore_handDown]),
          byPrecedence_foldl_retire distinctNext, early, stays, part, part]
    _ = gone.foldl retire kept :=
        foldl_retire_filter (pairwise_byPrecedence distinctOver)
          (fun w hw => ends w (members w hw)) (fun r hr => ends r (List.mem_filter.1 hr).1) _
    _ = (s.prune later).transitions := (prune_transitions_foldl ..).symm

/-- An early pruning makes no difference to a later one, nor to what was taken out in all. -/
theorem prune_prune (distinct : DistinctIds s.transitions) (ends : ∀ r ∈ s.transitions, r.PlainEnds)
    (mono : ∀ r : Transition, r.isOverBefore earlier = true → r.isOverBefore later = true) :
    (s.prune earlier).prune later = s.prune later := by
  have left := prune_prune_transitions distinct ends mono
  have lengthFirst := s.length_prune earlier
  have lengthBoth := (s.prune earlier).length_prune later
  have lengthLast := s.length_prune later
  have counted : ((s.prune earlier).prune later).pruned = (s.prune later).pruned := by
    rw [left] at lengthBoth
    rw [prune_pruned, prune_pruned, prune_pruned]
    omega
  exact congrArg₂ (fun transitions pruned => { s with transitions, pruned }) left counted

/-! ## Runs of insertions and prunings -/

/-- No number is used twice and all values are well formed, whatever the times. -/
structure Formed (s : Schedule) : Prop where
  distinct : DistinctIds s.transitions
  fresh : ∀ r ∈ s.transitions, r.id < s.nextId
  ends : ∀ r ∈ s.transitions, WellFormedSlot r.start ∧ WellFormedSlot r.finish

theorem Sound.formed (h : s.Sound) : s.Formed where
  distinct := h.distinct
  fresh := h.fresh
  ends r hr := ⟨(h.sound r hr).start, (h.sound r hr).finish⟩

theorem Formed.remains (h : s.Formed) {s' : Schedule} (k : Remains s'.transitions s.transitions)
    (next : s'.nextId = s.nextId)
    (ends : ∀ r ∈ s'.transitions, WellFormedSlot r.start ∧ WellFormedSlot r.finish) :
    s'.Formed where
  distinct := k.pairwise (fun _ _ => Iff.rfl) h.distinct
  fresh := by
    rw [next]
    exact k.forall (fun _ => Iff.rfl) h.fresh
  ends := ends

theorem Formed.interrupt (h : s.Formed) (p : Path) (time : Binary64) :
    (s.interrupt p time).Formed := by
  refine h.remains (remains_interrupt s p time) rfl (forall_interrupt ?_ h.ends p time)
  exact fun g hg r hr => ends_handDown wellFormed_hereditary (h.ends g hg).2 hr

theorem Formed.prune (h : s.Formed) (time : Binary64) : (s.prune time).Formed := by
  refine h.remains (remains_prune s time) rfl (forall_prune ?_ h.ends time)
  exact fun g hg r hr => ends_handDown wellFormed_hereditary (h.ends g hg).2 hr

theorem Formed.push (h : s.Formed) {r : Transition} (number : r.id = s.nextId)
    (start : WellFormedSlot r.start) (finish : WellFormedSlot r.finish) : (s.push r).Formed where
  distinct := h.distinct.push h.fresh number
  fresh := fresh_push h.fresh number
  ends := forall_push h.ends ⟨start, finish⟩

/-- An insertion of well-formed values, at any time and for any duration. -/
def Edit.Formed : Edit → Prop
  | .insert change _ _ _ => WellFormedSlot change.old ∧ WellFormedSlot change.new
  | .prune _ => True

instance : (e : Edit) → Decidable e.Formed
  | .insert change _ _ _ =>
    inferInstanceAs (Decidable (WellFormedSlot change.old ∧ WellFormedSlot change.new))
  | .prune _ => isTrue trivial

theorem Formed.edit (h : s.Formed) {e : Edit} (he : e.Formed) : (s.edit e).Formed := by
  cases e with
  | prune time => exact h.prune time
  | insert change time timing source =>
    obtain ⟨old, new⟩ := he
    have start : WellFormedSlot (s.opened change time timing source).start :=
      slot_opening (fun _ => trivial) h.ends old time timing.joining
    have left := holds_cleared h (h.interrupt change.path time) timing.joining
    show (s.insert change time timing source).Formed
    rw [insert_eq_push]
    exact left.push (cleared_nextId ..).symm start new

theorem Formed.edits (h : s.Formed) {es : List Edit} (hes : ∀ e ∈ es, e.Formed) :
    (s.edits es).Formed := by
  induction es generalizing s with
  | nil => exact h
  | cons e es ih =>
    exact ih (h.edit (hes e List.mem_cons_self)) fun x hx => hes x (List.mem_cons_of_mem e hx)

/-- Whatever was inserted and pruned before, an early pruning makes no difference to a later one,
and pruning twice none to pruning once. -/
theorem prune_prune_edits {state : Tree} (source : Option Nat) {es : List Edit}
    (wellFormed : state.WellFormed) (formed : ∀ e ∈ es, e.Formed)
    (noLists : ∀ r ∈ ((empty.startWith state source).edits es).transitions,
      NoListsSlot r.start ∧ NoListsSlot r.finish) :
    let s := (empty.startWith state source).edits es
    (∀ earlier later, earlier ≤ later → (s.prune earlier).prune later = s.prune later) ∧
      ∀ time, (s.prune time).prune time = s.prune time := by
  intro s
  have h : s.Formed := (sound_startWith (s := empty) rfl wellFormed source).formed.edits formed
  have ends : ∀ r ∈ s.transitions, r.PlainEnds := fun r hr =>
    ⟨plainSlot_iff.2 ⟨(h.ends r hr).1, (noLists r hr).1⟩,
      plainSlot_iff.2 ⟨(h.ends r hr).2, (noLists r hr).2⟩⟩
  exact ⟨fun earlier later le => prune_prune h.distinct ends fun _ => isOverBefore_mono le,
    fun time => prune_prune h.distinct ends fun _ => id⟩

/-- A seat changes slowly, its name fast and its stack more slowly still. The early pruning folds
the name into the seat, which goes later and takes the stack with it. -/
theorem prune_prune_edits_seat :
    let seat (name stack : String) : Tree := .map [("name", .text name), ("stack", .text stack)]
    let state : Tree := .map [("pot", .text "none"), ("seat", seat "ada" "low")]
    let insert (path : Path) (old new : Tree) (time duration : Binary64) :=
      Edit.insert ⟨path, some old, some new⟩ time { duration } none
    let es := [insert ["seat", "stack"] (.text "low") (.text "high") 5 200,
      insert ["seat"] (seat "ada" "high") (seat "bob" "high") 10 100,
      insert ["pot"] (.text "none") (.text "some") 10 100,
      insert ["seat", "name"] (.text "bob") (.text "cy") 20 30, .prune 15,
      insert ["pot"] (.text "some") (.text "all") 40 10]
    let s := (empty.startWith state none).edits es
    let final : Tree := .map [("pot", .text "all"), ("seat", seat "cy" "high")]
    s.transitions.map (·.id) = [0, 1, 2, 4, 5] ∧
      (s.prune 60).transitions.map (·.id) = [0, 1, 2] ∧
      (s.prune 120).transitions.map (fun r => (r.id, r.finish)) = [(0, some final)] ∧
      (s.prune 60).prune 120 = s.prune 120 ∧ (s.prune 60).prune 60 = s.prune 60 := by
  intro seat state insert es s final
  have wellFormed : state.WellFormed := by decide
  have formed : ∀ e ∈ es, e.Formed := by decide +kernel
  have noLists : ∀ r ∈ s.transitions, NoListsSlot r.start ∧ NoListsSlot r.finish := by
    decide +kernel
  have ordered : s.transitions.Pairwise Older := by decide +kernel
  obtain ⟨twice, once⟩ := prune_prune_edits none wellFormed formed noLists
  refine ⟨by decide +kernel, ?_, ?_, twice 60 120 (by decide +kernel), once 60⟩
  · rw [prune_transitions ordered]
    decide +kernel
  · rw [prune_transitions ordered]
    decide +kernel

end Schedule

end TableMotion
