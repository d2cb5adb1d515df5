import TableMotion.Proofs.Lasting
import TableMotion.Proofs.Numerals

/-!
# Documents read back

A value that is written in the wide layout is read as itself, up to its floating numbers, if it is
nested no deeper than the reader allows and each of them is read; otherwise it is refused
(`value_wideChars`). Arrays and objects are treated once for any reader of their items and members.
-/

namespace TableMotion

namespace Json.Reader

/-! ## Strings -/

@[simp] theorem next_cons (c : Char) (rest : List Char) : next (c :: rest) = .ok (c, rest) := rfl

theorem hexValue?_hexDigit (n : Nat) : hexValue? (hexDigit n) = some (n % 16) := by
  have table : ∀ d < 16, hexValue? (Nat.digitChar d) = some d := by decide
  exact table _ (Nat.mod_lt _ (by decide))

/-- The escape of a control character by its number. -/
theorem escape_control {c : Char} (control : c < ' ') (tail : List Char) :
    escape ('u' :: '0' :: '0' :: hexDigit (c.toNat / 16) :: hexDigit c.toNat :: tail) =
      .ok (c, tail) := by
  have small : c.toNat < 32 := control
  have zero : hexValue? '0' = some 0 := by decide
  have four : fourHexDigits ('0' :: '0' :: hexDigit (c.toNat / 16) :: hexDigit c.toNat :: tail) =
      .ok (c.toNat, tail) := by
    have value : 16 * (c.toNat / 16 % 16) + c.toNat % 16 = c.toNat := by omega
    simp [fourHexDigits, zero, hexValue?_hexDigit, value]
  have low : c.toNat < 0xD800 := by omega
  have notHigh : ¬ 0xDC00 ≤ c.toNat := by omega
  simp [escape, simpleEscape?, four, low, notHigh, Char.ofNat_toNat]

/-- An escaped character is read as itself. -/
theorem stringRest_escapeChar (c : Char) (fuel : Nat) (tail : List Char) :
    stringRest (fuel + 1) (escapeChar c ++ tail) =
      (stringRest fuel tail).map fun p => (c :: p.1, p.2) := by
  unfold escapeChar
  -- the seven characters with an escape of their own
  iterate 7
    split
    · subst_vars
      simp [stringRest, escape, simpleEscape?]
  split
  · next control =>
    simp [stringRest, escape_control control]
  · next quote backslash _ _ _ _ _ plain =>
    simp [stringRest, quote, backslash, plain]

/-- What is written between quotes is read up to the closing one. -/
theorem stringRest_flatMap (cs tail : List Char) {fuel : Nat} (enough : cs.length < fuel) :
    stringRest fuel (cs.flatMap escapeChar ++ '"' :: tail) = .ok (cs, tail) := by
  induction cs generalizing fuel with
  | nil =>
    obtain ⟨fuel, rfl⟩ := Nat.exists_eq_succ_of_ne_zero (Nat.ne_of_gt enough)
    simp [stringRest]
  | cons c cs ih =>
    obtain ⟨fuel, rfl⟩ := Nat.exists_eq_succ_of_ne_zero (Nat.ne_of_gt (Nat.zero_lt_of_lt enough))
    rw [List.flatMap_cons, List.append_assoc, stringRest_escapeChar,
      ih (Nat.lt_of_succ_lt_succ enough)]
    rfl

theorem length_le_flatMap_escapeChar (cs : List Char) :
    cs.length ≤ (cs.flatMap escapeChar).length := by
  induction cs with
  | nil => exact Nat.le_refl _
  | cons c cs ih =>
    have some : 1 ≤ (escapeChar c).length := by
      unfold escapeChar
      repeat' split
      all_goals simp
    rw [List.flatMap_cons, List.length_append, List.length_cons]
    omega

/-! ## Blanks -/

theorem dropWhile_isBlank {blanks : List Char} (hb : blanks.all isBlank = true) {c : Char}
    (hc : isBlank c = false) (rest : List Char) :
    (blanks ++ c :: rest).dropWhile isBlank = c :: rest := by
  rw [List.dropWhile_append_of_pos (List.all_eq_true.1 hb),
    List.dropWhile_cons_of_neg (by simp [hc])]

theorem separator_cons {c : Char} (hc : isBlank c = false) (rest : List Char) :
    separator c (c :: rest) = .ok (⟨⟩, rest) := by
  simp [separator, hc]

/-- A string is read as itself. -/
theorem string_quoted (s : String) (rest : List Char) :
    string (quoted s ++ rest) = .ok (s, rest) := by
  have written : quoted s ++ rest = '"' :: (s.toList.flatMap escapeChar ++ '"' :: rest) := by
    simp [quoted]
  have enough : s.toList.length < (s.toList.flatMap escapeChar ++ '"' :: rest).length + 1 := by
    have := length_le_flatMap_escapeChar s.toList
    rw [List.length_append]
    omega
  have read := stringRest_flatMap s.toList rest enough
  rw [written]
  generalize s.toList.flatMap escapeChar ++ '"' :: rest = body at read ⊢
  simp [string, separator_cons (c := '"') (by decide), read]

/-! ## Items and members -/

section Sequences

variable {β σ : Type} {blanks closing rest : List Char} {body : β → List Char}
  {result : β → σ → Except Fault σ}

/-- The text of a sequence after one of its items: for each that follows a comma, blanks and its
body, and then the closing text. -/
def following (blanks : List Char) (body : β → List Char) (closing : List Char) :
    List β → List Char
  | [] => closing
  | x :: xs => ',' :: (blanks ++ (body x ++ following blanks body closing xs))

/-- The text of a sequence from its first item on. -/
def sequence (blanks : List Char) (body : β → List Char) (closing : List Char) :
    List β → List Char
  | [] => closing
  | x :: xs => blanks ++ (body x ++ following blanks body closing xs)

theorem length_lt_following (some : closing ≠ []) (xs : List β) :
    xs.length < (following blanks body closing xs).length := by
  induction xs with
  | nil => exact List.length_pos_iff.2 some
  | cons x xs ih =>
    simp only [following, List.length_cons, List.length_append]
    omega

theorem length_lt_sequence (some : closing ≠ []) (x : β) (xs : List β) :
    xs.length < (sequence blanks body closing (x :: xs)).length := by
  have : xs.length < (following blanks body closing xs).length := length_lt_following some xs
  simp only [sequence, List.length_append]
  omega

theorem endsNumber_following (h : EndsNumber closing) (xs : List β) :
    EndsNumber (following blanks body closing xs) := by
  cases xs with
  | nil => exact h
  | cons x xs => simp [EndsNumber, following]

/-! ### Items -/

/-- What opens the text of an item: a character that is no blank and no bracket. -/
def OpensItem (cs : List Char) : Prop :=
  ∃ c more, cs = c :: more ∧ isBlank c = false ∧ c ≠ ']'

theorem hasItem_closing (close : closing.dropWhile isBlank = ']' :: rest) (first : Bool) :
    hasItem first closing = .ok (false, ']' :: rest) := by
  simp [hasItem, close]

theorem hasItem_first (hb : blanks.all isBlank = true) {cs : List Char} (opens : OpensItem cs) :
    hasItem true (blanks ++ cs) = .ok (true, cs) := by
  obtain ⟨c, more, rfl, dark, other⟩ := opens
  simp [hasItem, dropWhile_isBlank hb dark, other]

theorem hasItem_next (hb : blanks.all isBlank = true) {cs : List Char} (opens : OpensItem cs) :
    hasItem false (',' :: (blanks ++ cs)) = .ok (true, cs) := by
  obtain ⟨c, more, rfl, dark, other⟩ := opens
  have comma : isBlank ',' = false := by decide
  simp [hasItem, comma, dropWhile_isBlank hb dark, other]

/-- A reader of items takes the body of each and leaves what follows. -/
def TakesItems (step : σ → Reader σ) (body : β → List Char) (result : β → σ → Except Fault σ)
    (xs : List β) : Prop :=
  ∀ x ∈ xs, ∀ tail, EndsNumber tail → OpensItem (body x ++ tail) ∧
    ∀ s, step s (body x ++ tail) = (result x s).map fun s' => (s', tail)

theorem items_following {step : σ → Reader σ} (hb : blanks.all isBlank = true)
    (close : closing.dropWhile isBlank = ']' :: rest) (ends : EndsNumber closing) {xs : List β}
    (takes : TakesItems step body result xs) {fuel : Nat} (enough : xs.length < fuel) (s : σ) :
    items step fuel false s (following blanks body closing xs) =
      (xs.foldlM (fun s x => result x s) s).map fun s' => (s', ']' :: rest) := by
  induction xs generalizing fuel s with
  | nil =>
    obtain ⟨fuel, rfl⟩ := Nat.exists_eq_succ_of_ne_zero (Nat.ne_of_gt enough)
    simp [items, following, hasItem_closing close]
  | cons x xs ih =>
    obtain ⟨fuel, rfl⟩ := Nat.exists_eq_succ_of_ne_zero (Nat.ne_of_gt (Nat.zero_lt_of_lt enough))
    obtain ⟨opens, read⟩ := takes x List.mem_cons_self (following blanks body closing xs)
      (endsNumber_following ends xs)
    simp only [items, following, bind_apply, hasItem_next hb opens, except_bind_ok, if_true,
      read, List.foldlM_cons, except_bind]
    cases result x s with
    | error e => rfl
    | ok s' =>
      exact ih (fun y hy => takes y (List.mem_cons_of_mem _ hy)) (Nat.lt_of_succ_lt_succ enough) s'

/-- The items of an array are taken one after another. -/
theorem array_sequence {step : σ → Reader σ} (hb : blanks.all isBlank = true)
    (close : closing.dropWhile isBlank = ']' :: rest) (ends : EndsNumber closing) {xs : List β}
    (takes : TakesItems step body result xs) (init : σ) :
    array step init ('[' :: sequence blanks body closing xs) =
      (xs.foldlM (fun s x => result x s) init).map fun s => (s, rest) := by
  have closed : separator ']' (']' :: rest) = .ok (⟨⟩, rest) := separator_cons (by decide) rest
  have opened := separator_cons (c := '[') (by decide) (sequence blanks body closing xs)
  simp only [array, bind_apply, opened, except_bind_ok, get_apply]
  cases xs with
  | nil => simp [items, sequence, hasItem_closing close, closed]
  | cons x xs =>
    obtain ⟨opens, read⟩ := takes x List.mem_cons_self (following blanks body closing xs)
      (endsNumber_following ends xs)
    have some : closing ≠ [] := by
      rintro rfl
      cases close
    have enough : xs.length < (sequence blanks body closing (x :: xs)).length :=
      length_lt_sequence some x xs
    generalize (sequence blanks body closing (x :: xs)).length = fuel at enough ⊢
    simp only [items, bind_apply, sequence, hasItem_first hb opens, except_bind_ok, if_true,
      read, List.foldlM_cons, except_bind]
    cases result x init with
    | error e => rfl
    | ok s =>
      have others := items_following hb close ends
        (fun y hy => takes y (List.mem_cons_of_mem _ hy)) enough s
      simp only [except_map_ok, except_bind_ok, others]
      cases xs.foldlM (fun s x => result x s) s with
      | error e => rfl
      | ok s => simp [closed]

/-! ### Members -/

theorem hasMember_closing (close : closing.dropWhile isBlank = '}' :: rest) (first : Bool) :
    hasMember first closing = .ok (false, '}' :: rest) := by
  simp [hasMember, close]

theorem hasMember_first (hb : blanks.all isBlank = true) (key : String) (tail : List Char) :
    hasMember true (blanks ++ (quoted key ++ tail)) = .ok (true, quoted key ++ tail) := by
  have quote : isBlank '"' = false := by decide
  simp [hasMember, quoted, dropWhile_isBlank hb quote]

theorem hasMember_next (hb : blanks.all isBlank = true) (key : String) (tail : List Char) :
    hasMember false (',' :: (blanks ++ (quoted key ++ tail))) = .ok (true, quoted key ++ tail) := by
  have quote : isBlank '"' = false := by decide
  have comma : isBlank ',' = false := by decide
  simp [hasMember, comma, quoted, dropWhile_isBlank hb quote]

variable {keyOf : β → String} {valueOf : β → List Char}

/-- The text of a member. -/
def member (keyOf : β → String) (valueOf : β → List Char) (x : β) : List Char :=
  quoted (keyOf x) ++ valueOf x

/-- A reader of members takes what stands behind each key and leaves what follows. -/
def TakesMembers (step : String → σ → Reader σ) (keyOf : β → String) (valueOf : β → List Char)
    (result : β → σ → Except Fault σ) (xs : List β) : Prop :=
  ∀ x ∈ xs, ∀ tail, EndsNumber tail →
    ∀ s, step (keyOf x) s (valueOf x ++ tail) = (result x s).map fun s' => (s', tail)

theorem members_following {step : String → σ → Reader σ} (hb : blanks.all isBlank = true)
    (close : closing.dropWhile isBlank = '}' :: rest) (ends : EndsNumber closing) {xs : List β}
    (takes : TakesMembers step keyOf valueOf result xs) {fuel : Nat} (enough : xs.length < fuel)
    (s : σ) :
    members string step fuel false s (following blanks (member keyOf valueOf) closing xs) =
      (xs.foldlM (fun s x => result x s) s).map fun s' => (s', '}' :: rest) := by
  induction xs generalizing fuel s with
  | nil =>
    obtain ⟨fuel, rfl⟩ := Nat.exists_eq_succ_of_ne_zero (Nat.ne_of_gt enough)
    simp [members, following, hasMember_closing close]
  | cons x xs ih =>
    obtain ⟨fuel, rfl⟩ := Nat.exists_eq_succ_of_ne_zero (Nat.ne_of_gt (Nat.zero_lt_of_lt enough))
    have read := takes x List.mem_cons_self (following blanks (member keyOf valueOf) closing xs)
      (endsNumber_following ends xs)
    simp only [members, following, member, List.append_assoc, bind_apply, hasMember_next hb,
      except_bind_ok, if_true, string_quoted, read, List.foldlM_cons, except_bind]
    cases result x s with
    | error e => rfl
    | ok s' =>
      exact ih (fun y hy => takes y (List.mem_cons_of_mem _ hy)) (Nat.lt_of_succ_lt_succ enough) s'

/-- The members of an object are taken one after another. -/
theorem object_sequence {step : String → σ → Reader σ} (hb : blanks.all isBlank = true)
    (close : closing.dropWhile isBlank = '}' :: rest) (ends : EndsNumber closing) {xs : List β}
    (takes : TakesMembers step keyOf valueOf result xs) (init : σ) :
    object step init ('{' :: sequence blanks (member keyOf valueOf) closing xs) =
      (xs.foldlM (fun s x => result x s) init).map fun s => (s, rest) := by
  have closed : separator '}' ('}' :: rest) = .ok (⟨⟩, rest) := separator_cons (by decide) rest
  have opened := separator_cons (c := '{') (by decide)
    (sequence blanks (member keyOf valueOf) closing xs)
  simp only [object, bind_apply, opened, except_bind_ok, get_apply]
  cases xs with
  | nil => simp [members, sequence, hasMember_closing close, closed]
  | cons x xs =>
    have read := takes x List.mem_cons_self (following blanks (member keyOf valueOf) closing xs)
      (endsNumber_following ends xs)
    have some : closing ≠ [] := by
      rintro rfl
      cases close
    have enough : xs.length < (sequence blanks (member keyOf valueOf) closing (x :: xs)).length :=
      length_lt_sequence some x xs
    generalize (sequence blanks (member keyOf valueOf) closing (x :: xs)).length = fuel
      at enough ⊢
    simp only [members, sequence, member, List.append_assoc, bind_apply, hasMember_first hb,
      except_bind_ok, if_true, string_quoted, read, List.foldlM_cons, except_bind]
    cases result x init with
    | error e => rfl
    | ok s =>
      have others := members_following hb close ends
        (fun y hy => takes y (List.mem_cons_of_mem _ hy)) enough s
      simp only [except_map_ok, except_bind_ok, others]
      cases xs.foldlM (fun s x => result x s) s with
      | error e => rfl
      | ok s => simp [closed]

end Sequences

/-! ## The wide layout -/

theorem all_isBlank_lineBreak (depth : Nat) : (lineBreak depth).all isBlank = true := by
  simp [lineBreak, isBlank]

theorem dropWhile_lineBreak (depth : Nat) {c : Char} (hc : isBlank c = false) (rest : List Char) :
    (lineBreak depth ++ c :: rest).dropWhile isBlank = c :: rest :=
  dropWhile_isBlank (all_isBlank_lineBreak depth) hc rest

theorem endsNumber_lineBreak (depth : Nat) (rest : List Char) :
    EndsNumber (lineBreak depth ++ rest) := by
  simp [EndsNumber, lineBreak]

theorem wideItems_append (depth : Nat) (closing : List Char) (items : List Json) :
    wideItems depth items ++ closing =
      sequence (lineBreak depth) (wideChars depth) closing items := by
  induction items with
  | nil => rfl
  | cons v items ih =>
    cases items with
    | nil => simp [wideItems, sequence, following]
    | cons w items => simpa [wideItems, sequence, following] using ih

/-- The value of a member behind its key. -/
def wideMember (depth : Nat) (m : String × Json) : List Char := ':' :: ' ' :: wideChars depth m.2

theorem wideMembers_append (depth : Nat) (closing : List Char) (members : List (String × Json)) :
    wideMembers depth members ++ closing =
      sequence (lineBreak depth) (member Prod.fst (wideMember depth)) closing members := by
  induction members with
  | nil => rfl
  | cons m members ih =>
    cases members with
    | nil => simp [wideMembers, sequence, following, member, wideMember]
    | cons w members => simpa [wideMembers, sequence, following, member, wideMember] using ih

/-- An array is written as a sequence. -/
theorem wideChars_array (depth : Nat) (items : List Json) (rest : List Char) :
    ∃ closing, closing.dropWhile isBlank = ']' :: rest ∧ EndsNumber closing ∧
      wideChars depth (.array items) ++ rest =
        '[' :: sequence (lineBreak (depth + 1)) (wideChars (depth + 1)) closing items := by
  cases items with
  | nil =>
    exact ⟨']' :: rest, by simp [isBlank], by simp [EndsNumber], by simp [wideChars, sequence]⟩
  | cons v items =>
    refine ⟨lineBreak depth ++ ']' :: rest, dropWhile_lineBreak depth (by decide) rest,
      endsNumber_lineBreak depth _, ?_⟩
    rw [← wideItems_append]
    simp [wideChars]

/-- An object is written as a sequence. -/
theorem wideChars_object (depth : Nat) (members : List (String × Json)) (rest : List Char) :
    ∃ closing, closing.dropWhile isBlank = '}' :: rest ∧ EndsNumber closing ∧
      wideChars depth (.object members) ++ rest =
        '{' :: sequence (lineBreak (depth + 1)) (member Prod.fst (wideMember (depth + 1)))
          closing members := by
  cases members with
  | nil =>
    exact ⟨'}' :: rest, by simp [isBlank], by simp [EndsNumber], by simp [wideChars, sequence]⟩
  | cons m members =>
    refine ⟨lineBreak depth ++ '}' :: rest, dropWhile_lineBreak depth (by decide) rest,
      endsNumber_lineBreak depth _, ?_⟩
    rw [← wideMembers_append]
    simp [wideChars]

/-! ## Values -/

/-- A character that a number may begin with. No other value begins with it. -/
structure OpensNumber (c : Char) : Prop where
  opens : c = '-' ∨ c.isDigit = true
  dark : isBlank c = false
  other : c ∉ ['n', 't', 'f', '"', '[', '{', ']']

theorem opensNumber_of_opens {c : Char} (h : c = '-' ∨ c.isDigit = true) : OpensNumber c := by
  have differs : ∀ d, (¬ (d = '-' ∨ d.isDigit = true)) → c ≠ d := by
    rintro d closed rfl
    exact closed h
  refine ⟨h, ?_, ?_⟩
  · simp [isBlank, differs ' ' (by decide), differs '\t' (by decide), differs '\n' (by decide),
      differs '\r' (by decide)]
  · intro letter
    simp only [List.mem_cons, List.not_mem_nil, or_false] at letter
    rcases letter with rfl | rfl | rfl | rfl | rfl | rfl | rfl <;> revert h <;> decide

/-- A number is told by its first character. -/
theorem opens_of_number {cs : List Char} {p : Json × List Char} (h : number cs = .ok p) :
    ∃ c more, cs = c :: more ∧ OpensNumber c := by
  cases cs with
  | nil => simp [number, wholeDigits, someDigits] at h
  | cons c more =>
    refine ⟨c, more, rfl, opensNumber_of_opens ?_⟩
    by_contra other
    rw [not_or] at other
    simp [number, wholeDigits, someDigits, other] at h

variable {inner : Option (Reader Json)}

/-- A floating number is told by its first character. -/
theorem opens_realChars (x : FiniteBinary64) (rest : List Char) :
    ∃ c more, realChars x ++ rest = c :: more ∧ OpensNumber c := by
  obtain ⟨n, -, written, chars⟩ := realChars_spells x
  obtain ⟨c, more, spelled, opens⟩ := written.opens
  exact ⟨c, more ++ rest, by rw [chars, spelled, List.cons_append], opensNumber_of_opens opens⟩

/-- What begins like a number is read as one. -/
theorem valueWith_of_opens {c : Char} (opens : OpensNumber c) (more : List Char) :
    valueWith inner (c :: more) = number (c :: more) := by
  obtain ⟨opens, dark, other⟩ := opens
  have stays : (c :: more).dropWhile isBlank = c :: more := by simp [dark]
  simp only [valueWith, bind_apply, peek_apply, except_bind_ok, stays, List.head?_cons]
  split <;> simp_all

theorem value_blank (d : Nat) (cs : List Char) : value d (' ' :: cs) = value d cs := by
  cases d <;> simp [value, valueWith, isBlank]

theorem valueWith_array (item : Reader Json) (cs : List Char) :
    valueWith (some item) ('[' :: cs) =
      (array (fun found => return (← item) :: found) [] ('[' :: cs)).map fun p =>
        (.array p.1.reverse, p.2) := by
  have dark : isBlank '[' = false := by decide
  simp [valueWith, dark]

theorem valueWith_object (item : Reader Json) (cs : List Char) :
    valueWith (some item) ('{' :: cs) =
      (object (fun key (found : Dictionary Json) => do
        separator ':'
        return found.insert key (← item)) [] ('{' :: cs)).map fun p => (.object p.1, p.2) := by
  have dark : isBlank '{' = false := by decide
  simp [valueWith, dark]

theorem depthOfItems_le_iff {items : List Json} {d : Nat} :
    depthOfItems items ≤ d ↔ ∀ v ∈ items, v.depth ≤ d := by
  induction items with
  | nil => simp [depthOfItems]
  | cons v items ih => simp [depthOfItems, ih]

theorem depthOfMembers_le_iff {members : List (String × Json)} {d : Nat} :
    depthOfMembers members ≤ d ↔ ∀ m ∈ members, m.2.depth ≤ d := by
  induction members with
  | nil => simp [depthOfMembers]
  | cons m members ih => simp [depthOfMembers, ih]

/-- Steps that are taken under a condition are all taken, or one of them fails. -/
theorem foldlM_guarded {β σ : Type} (holds : β → Prop) [DecidablePred holds] (f : σ → β → σ)
    (fault : Fault) (xs : List β) (s : σ) :
    xs.foldlM (fun s x => if holds x then Except.ok (f s x) else .error fault) s =
      if ∀ x ∈ xs, holds x then .ok (xs.foldl f s) else .error fault := by
  induction xs generalizing s with
  | nil => simp
  | cons x xs ih =>
    by_cases h : holds x <;> simp [h, ih]

/-- A value opens an item. -/
theorem opensItem_wideChars {v : Json} (hv : v.WellFormed) (k : Nat) {rest : List Char}
    (ends : EndsNumber rest) : OpensItem (wideChars k v ++ rest) := by
  have ofNumber : ∀ {cs}, (∃ c more, cs = c :: more ∧ OpensNumber c) → OpensItem cs := by
    rintro _ ⟨c, more, rfl, opens⟩
    exact ⟨c, more, rfl, opens.dark, fun bracket => opens.other (by simp [bracket])⟩
  cases v with
  | null => exact ⟨_, _, rfl, by decide, by decide⟩
  | bool b => cases b <;> exact ⟨_, _, rfl, by decide, by decide⟩
  | integer n =>
    rw [wideChars]
    exact ofNumber (opens_of_number (number_integerChars hv ends))
  | real x =>
    rw [wideChars]
    exact ofNumber (opens_realChars x rest)
  | text s =>
    rw [wideChars]
    exact ⟨'"', _, rfl, by decide, by decide⟩
  | array items =>
    obtain ⟨closing, -, -, spelled⟩ := wideChars_array k items rest
    exact ⟨'[', _, spelled, by decide, by decide⟩
  | object members =>
    obtain ⟨closing, -, -, spelled⟩ := wideChars_object k members rest
    exact ⟨'{', _, spelled, by decide, by decide⟩

/-- A value that opens nothing is read by any reader. -/
theorem valueWith_scalar {v : Json} (hv : v.WellFormed) (scalar : v.depth = 0) (d k : Nat)
    {rest : List Char} (ends : EndsNumber rest) :
    valueWith inner (wideChars k v ++ rest) = readOf (v.reread? again? d) rest := by
  rw [reread?_of_scalar scalar]
  cases v with
  | null => simp [wideChars, valueWith, isBlank, literally, isReadable, reread]
  | bool b => cases b <;> simp [wideChars, valueWith, isBlank, literally, isReadable, reread]
  | integer n =>
    have read := number_integerChars hv ends
    obtain ⟨c, more, spelled, opens⟩ := opens_of_number read
    rw [wideChars, spelled, valueWith_of_opens opens, ← spelled, read]
    rfl
  | real x =>
    obtain ⟨c, more, spelled, opens⟩ := opens_realChars x rest
    rw [wideChars, spelled, valueWith_of_opens opens, ← spelled, number_realChars x ends]
    cases read : again? x <;> simp [isReadable, reread, read]
  | text s =>
    have read := string_quoted s rest
    obtain ⟨body, spelled⟩ : ∃ body, quoted s ++ rest = '"' :: body := ⟨_, rfl⟩
    rw [wideChars]
    rw [spelled] at read ⊢
    simp [valueWith, isBlank, read, isReadable, reread]
  | array | object => simp [depth] at scalar

/-- A value in the wide layout is read as itself, up to its floating numbers, if it is nested no
deeper than the reader allows and each of them is read; otherwise it is refused. -/
theorem value_wideChars {d : Nat} {v : Json} (hv : v.WellFormed) (k : Nat) {rest : List Char}
    (ends : EndsNumber rest) :
    value d (wideChars k v ++ rest) = readOf (v.reread? again? d) rest := by
  -- on the depth that the reader allows: items and members are read with one level less
  induction d generalizing v k rest with
  | zero =>
    cases v with
    | null | bool | integer | real | text => exact valueWith_scalar hv rfl _ k ends
    | array items =>
      obtain ⟨closing, -, -, spelled⟩ := wideChars_array k items rest
      rw [spelled, value]
      simp [valueWith, isBlank, reread?, depth]
    | object members =>
      obtain ⟨closing, -, -, spelled⟩ := wideChars_object k members rest
      rw [spelled, value]
      simp [valueWith, isBlank, reread?, depth]
  | succ d ih =>
    cases v with
    | null | bool | integer | real | text => exact valueWith_scalar hv rfl _ k ends
    | array items =>
      obtain ⟨closing, close, ends, spelled⟩ := wideChars_array k items rest
      have takes : TakesItems (fun found => return (← value d) :: found) (wideChars (k + 1))
          (fun v found => if v.depth ≤ d ∧ v.isReadable again? = true
            then .ok (v.reread again? :: found) else .error .malformed) items := by
        intro v member tail ends
        have hv := wellFormedItems_iff.1 hv v member
        refine ⟨opensItem_wideChars hv (k + 1) ends, fun found => ?_⟩
        simp only [bind_apply, ih hv (k + 1) ends, reread?]
        split <;> rfl
      rw [spelled, value, valueWith_array,
        array_sequence (all_isBlank_lineBreak (k + 1)) close ends takes, foldlM_guarded]
      simp only [reread?, depth, isReadable, Nat.add_le_add_iff_right, depthOfItems_le_iff,
        isReadableItems_iff, ← forall₂_and]
      split <;> simp [reread]
    | object members =>
      obtain ⟨closing, close, ends, spelled⟩ := wideChars_object k members rest
      have takes : TakesMembers (fun key (found : Dictionary Json) => do
          separator ':'
          return found.insert key (← value d)) Prod.fst (wideMember (k + 1))
          (fun m found => if m.2.depth ≤ d ∧ m.2.isReadable again? = true
            then .ok (found.insert m.1 (m.2.reread again?)) else .error .malformed) members := by
        intro m hm tail ends found
        have read := ih (Json.wellFormedMembers_iff.1 hv.2 m hm) (k + 1) ends
        simp only [wideMember, List.cons_append, bind_apply, separator_cons (c := ':') (by decide),
          except_bind_ok, value_blank, read, reread?]
        split <;> rfl
      have again : members.foldl (fun found m => Dictionary.insert m.1 (m.2.reread again?) found)
          [] = rereadMembers again? members := by
        rw [rereadMembers_eq_mapValues, ← Dictionary.insertAll_nil (hv.1.mapValues _),
          Dictionary.insertAll, Dictionary.mapValues, List.foldl_map]
      rw [spelled, value, valueWith_object,
        object_sequence (all_isBlank_lineBreak (k + 1)) close ends takes, foldlM_guarded, again]
      simp only [reread?, depth, isReadable, Nat.add_le_add_iff_right, depthOfMembers_le_iff,
        isReadableMembers_iff, ← forall₂_and]
      split <;> simp [reread]

end Json.Reader

end TableMotion
