import TableMotion.Proofs.Replaying
import TableMotion.Recording.Text

/-!
# Messages recorded at the end

A message that is recorded gets the number after that of the last entry. That is above all others,
and the message is replayed last, exactly if the last entry carries the greatest number
(`appendsAllLast_iff`). A recording of lines and one that was made here have their entries in that
order; a document may list its entries in any other.
-/

namespace TableMotion

namespace Recording

/-! ## The order of replay when entries are added -/

/-- There is one order by number that keeps entries with one number as they stand. -/
theorem StableOrder.unique {entries first second : List Entry} (h : StableOrder entries first)
    (k : StableOrder entries second) : first = second := by
  have level : ∀ n, first.filter (·.seq = n) = second.filter (·.seq = n) := fun n =>
    (h.stable n).trans (k.stable n).symm
  have sortedFirst := h.sorted
  have sortedSecond := k.sorted
  clear h k
  induction first generalizing second with
  | nil =>
    cases second with
    | nil => rfl
    | cons b second =>
      have := level b.seq
      simp at this
  | cons a first ih =>
    have memberA : a ∈ second := by
      have found : a ∈ (a :: first).filter (·.seq = a.seq) := by simp
      rw [level] at found
      exact (List.mem_filter.1 found).1
    cases second with
    | nil => cases memberA
    | cons b second =>
      have memberB : b ∈ a :: first := by
        have found : b ∈ (b :: second).filter (·.seq = b.seq) := by simp
        rw [← level] at found
        exact (List.mem_filter.1 found).1
      obtain ⟨lowA, restFirst⟩ := List.pairwise_cons.1 sortedFirst
      obtain ⟨lowB, restSecond⟩ := List.pairwise_cons.1 sortedSecond
      -- each head has the least number, so both lead the entries with that number
      have equal : a.seq = b.seq := by
        have below : b.seq ≤ a.seq := by
          rcases List.mem_cons.1 memberA with rfl | later
          · exact Nat.le_refl _
          · exact lowB a later
        have above : a.seq ≤ b.seq := by
          rcases List.mem_cons.1 memberB with rfl | later
          · exact Nat.le_refl _
          · exact lowA b later
        exact Nat.le_antisymm above below
      have heads := level a.seq
      rw [List.filter_cons_of_pos (by simp), List.filter_cons_of_pos (by simp [equal])] at heads
      obtain ⟨rfl, -⟩ := List.cons_eq_cons.1 heads
      refine congrArg (a :: ·) (ih (fun n => ?_) restFirst restSecond)
      have both := level n
      by_cases here : a.seq = n
      · rw [List.filter_cons_of_pos (by simpa using here),
          List.filter_cons_of_pos (by simpa using here)] at both
        exact (List.cons_eq_cons.1 both).2
      · rwa [List.filter_cons_of_neg (by simpa using here),
          List.filter_cons_of_neg (by simpa using here)] at both

variable {r : Recording}

theorem inOrder_perm (r : Recording) : r.inOrder.Perm r.entries := List.mergeSort_perm ..

/-- Entries that stand in order at the end are replayed last if none before has a greater number. -/
theorem inOrder_append {added : List Entry} (sorted : added.Pairwise fun a b => a.seq ≤ b.seq)
    (low : ∀ e ∈ r.entries, ∀ x ∈ added, e.seq ≤ x.seq) :
    inOrder ⟨r.entries ++ added⟩ = r.inOrder ++ added := by
  have before := stableOrder_inOrder r
  refine (stableOrder_inOrder ⟨r.entries ++ added⟩).unique ⟨?_, fun n => ?_⟩
  · refine List.pairwise_append.2 ⟨before.sorted, sorted, fun e he x hx => ?_⟩
    exact low e ((inOrder_perm r).mem_iff.1 he) x hx
  · rw [List.filter_append, List.filter_append, before.stable]

/-- Whatever replays last of the entries at the end, none before them has a greater number. -/
theorem seq_le_of_inOrder_append {added last : List Entry}
    (split : inOrder ⟨r.entries ++ added⟩ = r.inOrder ++ last) :
    ∀ e ∈ r.entries, ∀ x ∈ added, e.seq ≤ x.seq := by
  intro e he x hx
  have perm : last.Perm added := by
    have whole := inOrder_perm ⟨r.entries ++ added⟩
    rw [split] at whole
    exact (List.perm_append_left_iff _).1 (whole.trans ((inOrder_perm r).symm.append_right added))
  have ordered := (stableOrder_inOrder ⟨r.entries ++ added⟩).sorted
  rw [split] at ordered
  exact (List.pairwise_append.1 ordered).2.2 e ((inOrder_perm r).mem_iff.2 he) x
    (perm.mem_iff.2 hx)

/-! ## Recording messages one after another -/

/-- Messages under consecutive numbers. -/
def numbered (first : Nat) (ms : List Message) : List Entry :=
  (ms.zipIdx first).map fun m => ⟨m.2, m.1⟩

theorem numbered_cons (first : Nat) (m : Message) (ms : List Message) :
    numbered first (m :: ms) = ⟨first, m⟩ :: numbered (first + 1) ms := rfl

theorem message_numbered (first : Nat) (ms : List Message) :
    (numbered first ms).map (·.message) = ms := by
  induction ms generalizing first with
  | nil => rfl
  | cons m ms ih => rw [numbered_cons, List.map_cons, ih]

theorem le_seq_of_mem_numbered {first : Nat} {ms : List Message} {e : Entry}
    (he : e ∈ numbered first ms) : first ≤ e.seq := by
  obtain ⟨m, hm, rfl⟩ := List.mem_map.1 he
  exact List.le_snd_of_mem_zipIdx hm

theorem sorted_numbered (first : Nat) (ms : List Message) :
    (numbered first ms).Pairwise fun a b => a.seq ≤ b.seq := by
  induction ms generalizing first with
  | nil => exact List.Pairwise.nil
  | cons m ms ih =>
    rw [numbered_cons]
    refine List.pairwise_cons.2 ⟨fun e he => ?_, ih (first + 1)⟩
    exact Nat.le_of_succ_le (le_seq_of_mem_numbered he)

/-- Records messages in their order. -/
def appendAll? (r : Recording) : List Message → Option Recording
  | [] => some r
  | m :: ms => (r.append? m).bind fun s => s.2.appendAll? ms

/-- So many more messages can be recorded before the numbers are used up. -/
def HasRoom (r : Recording) (count : Nat) : Prop :=
  count ≤ 0x10000000000000000 ∧ ∀ e ∈ r.entries, e.seq + count < 0x10000000000000000

instance (r : Recording) (count : Nat) : Decidable (r.HasRoom count) :=
  inferInstanceAs (Decidable (_ ∧ _))

/-- The number that comes next: zero, or the one after that of the last entry. -/
theorem exists_nextSeq? {count : Nat} (room : r.HasRoom (count + 1)) :
    ∃ n, r.nextSeq? = some n ∧ n + count < 0x10000000000000000 ∧
      (r.entries = [] ∧ n = 0 ∨ ∃ last, r.entries.getLast? = some last ∧ n = last.seq + 1) := by
  obtain ⟨few, low⟩ := room
  unfold nextSeq?
  cases atEnd : r.entries.getLast? with
  | none => exact ⟨0, rfl, by omega, Or.inl ⟨List.getLast?_eq_none_iff.1 atEnd, rfl⟩⟩
  | some last =>
    have small := low last (List.mem_of_getLast? atEnd)
    exact ⟨last.seq + 1, if_pos (by omega), by omega, Or.inr ⟨last, rfl, rfl⟩⟩

theorem append?_of_nextSeq? {n : Nat} (next : r.nextSeq? = some n) (m : Message) :
    r.append? m = some (n, ⟨r.entries ++ [⟨n, m⟩]⟩) := by
  rw [append?, next]
  rfl

theorem nextSeq?_append {n : Nat} (m : Message) (small : n + 1 < 0x10000000000000000) :
    (⟨r.entries ++ [⟨n, m⟩]⟩ : Recording).nextSeq? = some (n + 1) := by
  rw [nextSeq?, List.getLast?_concat]
  exact if_pos small

/-- A run of recorded messages stands at the end under consecutive numbers. -/
theorem appendAll?_eq {n : Nat} (next : r.nextSeq? = some n) {ms : List Message}
    (small : n + ms.length ≤ 0x10000000000000000) :
    r.appendAll? ms = some ⟨r.entries ++ numbered n ms⟩ := by
  induction ms generalizing r n with
  | nil => simp [appendAll?, numbered]
  | cons m ms ih =>
    rw [appendAll?, append?_of_nextSeq? next, Option.bind_some]
    cases ms with
    | nil => rfl
    | cons other ms =>
      simp only [List.length_cons] at small
      rw [ih (nextSeq?_append m (by omega)) (by simp only [List.length_cons]; omega),
        numbered_cons n m]
      simp

/-! ## Where the last number stands -/

/-- No number exceeds that of the last entry by more than `slack`. -/
def TrailsBy (r : Recording) (slack : Nat) : Prop :=
  ∀ last, r.entries.getLast? = some last → ∀ e ∈ r.entries, e.seq ≤ last.seq + slack

theorem trailsBy_iff {n : Nat}
    (next : r.entries = [] ∧ n = 0 ∨ ∃ last, r.entries.getLast? = some last ∧ n = last.seq + 1)
    (slack : Nat) : r.TrailsBy slack ↔ ∀ e ∈ r.entries, e.seq < n + slack := by
  rcases next with ⟨nothing, -⟩ | ⟨last, atEnd, rfl⟩
  · simp [TrailsBy, nothing]
  · constructor
    · intro trails e he
      have := trails last atEnd e he
      omega
    · intro low other atEnd' e he
      rw [atEnd] at atEnd'
      cases atEnd'
      have := low e he
      omega

/-- Recordings of lines have their entries in order. -/
theorem trailsBy_ofLines {text : String} (read : ofLines text = .ok r) : r.TrailsBy 0 := by
  unfold ofLines at read
  cases decoded : messagesOfLines (Text.trimmedLines text).zipIdx with
  | error e =>
    rw [decoded] at read
    cases read
  | ok ms =>
    rw [decoded] at read
    cases read
    intro last atEnd e he
    have sorted := sorted_numbered 0 ms
    obtain ⟨es, split⟩ := List.getLast?_eq_some_iff.1 atEnd
    have same : numbered 0 ms = es ++ [last] := split
    rw [same] at sorted
    rw [split] at he
    rcases List.mem_append.1 he with he | he
    · exact (List.pairwise_append.1 sorted).2.2 e he last List.mem_cons_self
    · rw [List.mem_singleton.1 he]
      exact Nat.le_refl _

/-! ## Recorded last -/

/-- A recorded message has a number above all others, which is then the greatest one, and it is
replayed last. -/
structure IsLast (r : Recording) (m : Message) (seq : Nat) (r' : Recording) : Prop where
  above : ∀ e ∈ r.entries, e.seq < seq
  greatest : r'.greatestSeq? = some seq
  last : r'.inOrder.getLast? = some ⟨seq, m⟩

theorem isLast_iff {n : Nat} {m : Message} :
    r.IsLast m n ⟨r.entries ++ [⟨n, m⟩]⟩ ↔ ∀ e ∈ r.entries, e.seq < n := by
  refine ⟨IsLast.above, fun above => ⟨above, ?_, ?_⟩⟩
  · rw [greatestSeq?, List.max?_eq_some_iff]
    constructor
    · simp
    · intro number member
      obtain ⟨e, he, rfl⟩ := List.mem_map.1 member
      rcases List.mem_append.1 he with he | he
      · exact Nat.le_of_lt (above e he)
      · rw [List.mem_singleton.1 he]
  · have low : ∀ e ∈ r.entries, ∀ x ∈ [Entry.mk n m], e.seq ≤ x.seq := by
      intro e he x hx
      rw [List.mem_singleton.1 hx]
      exact Nat.le_of_lt (above e he)
    rw [inOrder_append (List.pairwise_singleton ..) low, List.getLast?_concat]

/-- Each message of a run is recorded last. -/
def AppendsAllLast : Recording → List Message → Prop
  | _, [] => True
  | r, m :: ms => ∃ seq r', r.append? m = some (seq, r') ∧ r.IsLast m seq r' ∧ r'.AppendsAllLast ms

/-- The messages of a run are recorded, and replayed in their order after everything else. -/
def ReplaysAfter (r : Recording) (ms : List Message) : Prop :=
  ∃ r' last, r.appendAll? ms = some r' ∧ r'.inOrder = r.inOrder ++ last ∧
    last.map (·.message) = ms

/-- What ends with the greatest number goes on so. -/
theorem appendsAllLast_of_trailsBy {n : Nat} (next : r.nextSeq? = some n)
    (above : ∀ e ∈ r.entries, e.seq < n) {ms : List Message}
    (small : n + ms.length ≤ 0x10000000000000000) : r.AppendsAllLast ms := by
  induction ms generalizing r n with
  | nil => trivial
  | cons m ms ih =>
    refine ⟨n, _, append?_of_nextSeq? next m, isLast_iff.2 above, ?_⟩
    simp only [List.length_cons] at small
    cases ms with
    | nil => trivial
    | cons other ms =>
      simp only [List.length_cons] at small
      refine ih (nextSeq?_append m (by omega)) ?_ (by simp only [List.length_cons]; omega)
      intro e he
      rcases List.mem_append.1 he with he | he
      · exact Nat.lt_succ_of_lt (above e he)
      · rw [List.mem_singleton.1 he]
        exact Nat.lt_succ_self n

/-- While there are numbers left, every message of a run can be recorded. Each gets a number above
all others and is replayed last exactly if the last entry carries the greatest number, as it does in
a recording of lines; the run is replayed after everything else exactly if no number exceeds the
last one by more than one. -/
theorem appendsAllLast_iff {m : Message} {ms : List Message} (room : r.HasRoom (ms.length + 1)) :
    (∃ r', r.appendAll? (m :: ms) = some r') ∧
      (r.AppendsAllLast (m :: ms) ↔ r.TrailsBy 0) ∧
      (r.ReplaysAfter (m :: ms) ↔ r.TrailsBy 1) ∧
      (r = empty ∨ (∃ text, ofLines text = .ok r) → r.TrailsBy 0) := by
  obtain ⟨n, next, small, origin⟩ := exists_nextSeq? room
  have length : n + (m :: ms).length ≤ 0x10000000000000000 := by
    simp only [List.length_cons]
    omega
  have recorded := appendAll?_eq next length
  refine ⟨⟨_, recorded⟩, ?_, ?_, ?_⟩
  · rw [trailsBy_iff origin]
    constructor
    · rintro ⟨seq, r', appended, last, -⟩
      rw [append?_of_nextSeq? next] at appended
      cases appended
      exact last.above
    · intro above
      exact appendsAllLast_of_trailsBy next above length
  · rw [trailsBy_iff origin]
    constructor
    · rintro ⟨r', last, done, split, -⟩ e he
      rw [recorded] at done
      cases done
      have low := seq_le_of_inOrder_append split e he ⟨n, m⟩ List.mem_cons_self
      exact Nat.lt_succ_of_le low
    · intro above
      have split := inOrder_append (sorted_numbered n (m :: ms)) fun e he x hx =>
        Nat.le_trans (Nat.le_of_lt_succ (above e he)) (le_seq_of_mem_numbered hx)
      exact ⟨_, _, recorded, split, message_numbered n (m :: ms)⟩
  · rintro (rfl | ⟨text, read⟩)
    · nofun
    · exact trailsBy_ofLines read

/-- A document lists number four before number one: what is recorded next gets number two, and is
replayed before an entry that was there. Listed the other way round, the document goes on with
number five. -/
theorem appendsAllLast_iff_shuffled :
    let chat : Message := .chat .null
    let shuffled : Recording := ⟨[⟨4, chat⟩, ⟨1, chat⟩]⟩
    let listed : Recording := ⟨[⟨1, chat⟩, ⟨4, chat⟩]⟩
    let ms : List Message := [.notification .null, .unrecognized "PING"]
    (shuffled.HasRoom 2 ∧ (shuffled.append? (.notification .null)).map (·.1) = some 2 ∧
        ¬ shuffled.AppendsAllLast ms ∧ ¬ shuffled.ReplaysAfter ms) ∧
      listed.HasRoom 2 ∧ (listed.append? (.notification .null)).map (·.1) = some 5 ∧
        listed.AppendsAllLast ms ∧ listed.ReplaysAfter ms := by
  intro chat shuffled listed ms
  have room : shuffled.HasRoom 2 := by decide
  have roomListed : listed.HasRoom 2 := by decide
  obtain ⟨-, last, after, -⟩ :=
    @appendsAllLast_iff shuffled (.notification .null) [.unrecognized "PING"] room
  obtain ⟨-, lastListed, afterListed, -⟩ :=
    @appendsAllLast_iff listed (.notification .null) [.unrecognized "PING"] roomListed
  have ahead : ∀ slack < 3, ¬ shuffled.TrailsBy slack := by
    intro slack less trails
    have := trails ⟨1, chat⟩ rfl ⟨4, chat⟩ List.mem_cons_self
    simp only at this
    omega
  have behind : ∀ slack, listed.TrailsBy slack := by
    intro slack last atEnd e he
    obtain rfl : ⟨4, chat⟩ = last := Option.some.inj atEnd
    rcases List.mem_cons.1 he with rfl | he
    · simp only
      omega
    · rw [List.mem_singleton.1 he]
      exact Nat.le_add_right ..
  refine ⟨⟨room, by decide, ?_, ?_⟩, roomListed, by decide, ?_, ?_⟩
  · exact fun h => ahead 0 (by decide) (last.1 h)
  · exact fun h => ahead 1 (by decide) (after.1 h)
  · exact lastListed.2 (behind 0)
  · exact afterListed.2 (behind 1)

end Recording

end TableMotion
