import TableMotion.Path.Text

/-!
# Paths read back from their text

A path is written with a slash before each key and read by splitting at the slashes. An escaped key
has no slash left, and to undo the escapes gives the key back, so exactly the paths without empty
keys read back as they are, and what was read once is written and read without a change
(`ofText_text_iff`). To escape a key is to replace every `~` and then every slash; to undo it the
two replacements are taken back in the other order.
-/

namespace TableMotion

namespace Text

/-! ## Replacing one text by another -/

/-- `cs` from behind the first `skip` characters on, with `new` for every `old` in it. -/
def replaceFrom (old new : List Char) : Nat → List Char → List Char
  | _, [] => []
  | skip + 1, _ :: cs => replaceFrom old new skip cs
  | 0, c :: cs =>
    if old.isPrefixOf (c :: cs) then new ++ replaceFrom old new (old.length - 1) cs
    else c :: replaceFrom old new 0 cs

/-- `cs` with `new` for every `old` in it, which is not empty. They are found from the left, do not
overlap, and are not looked for in what was put in. -/
def replaceAll (old new cs : List Char) : List Char := replaceFrom old new 0 cs

variable {old new cs : List Char} {c : Char}

theorem replaceFrom_append (xs : List Char) :
    replaceFrom old new xs.length (xs ++ cs) = replaceAll old new cs := by
  induction xs with
  | nil => rfl
  | cons x xs ih => exact ih

/-- An `old` at the front is replaced as a whole. -/
theorem replaceAll_self (old : List Char) :
    replaceAll (c :: old) new (c :: (old ++ cs)) = new ++ replaceAll (c :: old) new cs := by
  have found : (c :: old).isPrefixOf (c :: (old ++ cs)) = true :=
    List.isPrefixOf_iff_prefix.2 (List.prefix_append (c :: old) cs)
  rw [replaceAll, replaceFrom, if_pos found, List.length_cons, Nat.add_sub_cancel,
    replaceFrom_append]

theorem replaceAll_cons (other : ¬ old <+: c :: cs) :
    replaceAll old new (c :: cs) = c :: replaceAll old new cs := by
  rw [replaceAll, replaceFrom, if_neg (mt List.isPrefixOf_iff_prefix.1 other)]
  rfl

theorem replaceAll_cons_of_ne {d : Char} (different : d ≠ c) :
    replaceAll (d :: old) new (c :: cs) = c :: replaceAll (d :: old) new cs :=
  replaceAll_cons fun found => different (List.cons_prefix_cons.1 found).1

end Text

namespace Path

open Text

/-! ## Keys -/

theorem escapeKey_eq_replaceAll (key : List Char) :
    escapeKey key = replaceAll ['/'] ['~', '1'] (replaceAll ['~'] ['~', '0'] key) := by
  fun_induction escapeKey key with
  | case1 => rfl
  | case2 cs ih =>
    have tilde : replaceAll ['~'] ['~', '0'] ('~' :: cs) = '~' :: '0' :: replaceAll ['~'] _ cs :=
      replaceAll_self []
    rw [tilde, replaceAll_cons_of_ne (by decide), replaceAll_cons_of_ne (by decide), ih]
  | case3 cs _ ih =>
    have slash (cs) : replaceAll ['/'] ['~', '1'] ('/' :: cs) = '~' :: '1' :: replaceAll _ _ cs :=
      replaceAll_self []
    rw [replaceAll_cons_of_ne (by decide), slash, ih]
  | case4 c cs noTilde noSlash ih =>
    rw [replaceAll_cons_of_ne (Ne.symm noTilde), replaceAll_cons_of_ne (Ne.symm noSlash), ih]

theorem replaceAll_slash (cs : List Char) :
    replaceAll ['~', '1'] ['/'] ('~' :: '1' :: cs) = '/' :: replaceAll ['~', '1'] ['/'] cs :=
  replaceAll_self ['1']

/-- Replacing `~1` brings no zero to the front. -/
theorem head?_replaceAll_slash {cs : List Char}
    (zero : (replaceAll ['~', '1'] ['/'] cs).head? = some '0') : cs.head? = some '0' := by
  cases cs with
  | nil => cases zero
  | cons c cs =>
    by_cases found : ['~', '1'] <+: c :: cs
    · obtain ⟨rest, split⟩ := found
      rw [← split, List.cons_append, List.cons_append, List.nil_append, replaceAll_slash] at zero
      cases zero
    · simpa [replaceAll_cons found] using zero

theorem unescapeKey_eq_replaceAll (key : List Char) :
    unescapeKey key = replaceAll ['~', '0'] ['~'] (replaceAll ['~', '1'] ['/'] key) := by
  fun_induction unescapeKey key with
  | case1 cs ih =>
    have kept : ¬ ['~', '1'] <+: '~' :: '0' :: cs := by simp [List.cons_prefix_cons]
    have zero : replaceAll ['~', '1'] ['/'] ('0' :: cs) = '0' :: replaceAll _ _ cs :=
      replaceAll_cons_of_ne (by decide)
    have tilde (cs) : replaceAll ['~', '0'] ['~'] ('~' :: '0' :: cs) = '~' :: replaceAll _ _ cs :=
      replaceAll_self ['0']
    rw [replaceAll_cons kept, zero, tilde, ih]
  | case2 cs ih => rw [replaceAll_slash, replaceAll_cons_of_ne (by decide), ih]
  | case3 c cs noTilde noSlash ih =>
    have kept : ¬ ['~', '1'] <+: c :: cs := by
      rintro ⟨rest, split⟩
      obtain ⟨rfl, rfl⟩ := List.cons.inj split
      exact noSlash rest rfl rfl
    -- a zero behind `c` in the second replacement stood there in the first one, too
    have keptThen : ¬ ['~', '0'] <+: c :: replaceAll ['~', '1'] ['/'] cs := by
      rintro ⟨rest, split⟩
      obtain ⟨rfl, behind⟩ := List.cons.inj split
      have zero : cs.head? = some '0' := head?_replaceAll_slash (by rw [← behind]; rfl)
      obtain ⟨cs, rfl⟩ := List.head?_eq_some_iff.1 zero
      exact noTilde cs rfl rfl
    rw [replaceAll_cons kept, replaceAll_cons keptThen, ih]
  | case4 => rfl

theorem unescapeKey_cons {c : Char} (plain : c ≠ '~') (cs : List Char) :
    unescapeKey (c :: cs) = c :: unescapeKey cs := by
  rw [unescapeKey]
  · exact fun _ tilde => absurd tilde plain
  · exact fun _ tilde => absurd tilde plain

theorem unescapeKey_escapeKey (key : List Char) : unescapeKey (escapeKey key) = key := by
  fun_induction escapeKey key with
  | case1 => rfl
  | case2 cs ih => rw [unescapeKey, ih]
  | case3 cs _ ih => rw [unescapeKey, ih]
  | case4 c cs noTilde _ ih => rw [unescapeKey_cons noTilde, ih]

theorem slash_notMem_escapeKey (key : List Char) : '/' ∉ escapeKey key := by
  fun_induction escapeKey key with
  | case1 => exact List.not_mem_nil
  | case2 cs ih => simpa using ih
  | case3 cs _ ih => simpa using ih
  | case4 c cs _ noSlash ih => simpa using ⟨Ne.symm noSlash, ih⟩

theorem unescapeKey_eq_nil_iff {key : List Char} : unescapeKey key = [] ↔ key = [] := by
  fun_cases unescapeKey key <;> simp

theorem escapeKey_eq_nil_iff {key : List Char} : escapeKey key = [] ↔ key = [] := by
  rw [← unescapeKey_eq_nil_iff, unescapeKey_escapeKey]

/-! ## Paths -/

/-- The keys behind slashes are what stands between the slashes. -/
theorem append_flatMap_slash (first : List Char) (keys : List (List Char)) :
    first ++ keys.flatMap ('/' :: ·) = ['/'].intercalate (first :: keys) := by
  induction keys generalizing first with
  | nil => simp
  | cons key keys ih => simp [List.intercalate_cons_cons, ← ih]

theorem splitOn_flatMap_slash {keys : List (List Char)} (plain : ∀ key ∈ keys, '/' ∉ key) :
    (keys.flatMap ('/' :: ·)).splitOn '/' = [] :: keys := by
  rw [← List.nil_append (keys.flatMap _), append_flatMap_slash]
  exact List.splitOn_intercalate '/' (by simpa using plain) (by simp)

/-- The text of a path reads as its keys without the empty ones. -/
theorem ofText_text (p : Path) : ofText p.text = p.filter (· ≠ "") := by
  by_cases root : p = []
  · subst root
    decide
  · have written : p.text.toList = (p.map fun key => escapeKey key.toList).flatMap ('/' :: ·) := by
      rw [text, if_neg root, String.toList_ofList, List.flatMap_map]
    have apart : ∀ key ∈ p.map fun key => escapeKey key.toList, '/' ∉ key := by
      intro key found
      obtain ⟨key, -, rfl⟩ := List.mem_map.1 found
      exact slash_notMem_escapeKey _
    rw [ofText, written, splitOn_flatMap_slash apart, List.filter_cons_of_neg (by simp),
      List.filter_map, List.map_map]
    simp [Function.comp_def, escapeKey_eq_nil_iff, unescapeKey_escapeKey]

theorem empty_notMem_ofText (text : String) : "" ∉ ofText text := by
  intro found
  obtain ⟨key, kept, blank⟩ := List.mem_map.1 found
  have empty : key = [] := by
    simpa [unescapeKey_eq_nil_iff] using congrArg String.toList blank
  simp [empty] at kept

theorem ofText_text_of_notMem {p : Path} (filled : "" ∉ p) : ofText p.text = p := by
  rw [ofText_text, List.filter_eq_self]
  intro key member
  exact decide_eq_true fun empty => filled (empty ▸ member)

/-- A path reads back from its text exactly if no key is empty; two such paths with one text are the
same. What is read has no empty key, and is written and read without a change. To escape a key is to
replace every `~` by `~0` and then every slash by `~1`, to undo it to take back every `~1` and then
every `~0`. -/
theorem ofText_text_iff (p q : Path) (text : String) (key : List Char) :
    (ofText p.text = p ↔ "" ∉ p) ∧
    ("" ∉ p → "" ∉ q → p.text = q.text → p = q) ∧
    "" ∉ ofText text ∧
    ofText (ofText text).text = ofText text ∧
    escapeKey key = Text.replaceAll ['/'] ['~', '1'] (Text.replaceAll ['~'] ['~', '0'] key) ∧
    unescapeKey key = Text.replaceAll ['~', '0'] ['~'] (Text.replaceAll ['~', '1'] ['/'] key) := by
  refine ⟨⟨fun same => ?_, ofText_text_of_notMem⟩, ?_, empty_notMem_ofText text,
    ofText_text_of_notMem (empty_notMem_ofText text), escapeKey_eq_replaceAll key,
    unescapeKey_eq_replaceAll key⟩
  · rw [← same]
    exact empty_notMem_ofText p.text
  · intro hp hq same
    rw [← ofText_text_of_notMem hp, same, ofText_text_of_notMem hq]

/-- The keys `~1` and `/` are told apart, and `~01` stands for the first of them. -/
theorem ofText_text_iff_tilde :
    let tilde : Path := ["players", "~1", "~01"]
    let slash : Path := ["players", "/", "~01"]
    tilde.text = "/players/~01/~001" ∧ ofText tilde.text = tilde ∧ tilde.text ≠ slash.text ∧
      ofText (ofText "//players/~01//~001~").text = ["players", "~1", "~01~"] := by
  intro tilde slash
  obtain ⟨back, apart, -⟩ := ofText_text_iff tilde slash "" []
  obtain ⟨-, -, -, again, -⟩ := ofText_text_iff tilde slash "//players/~01//~001~" []
  have filled : "" ∉ tilde := by decide
  refine ⟨by decide, back.2 filled, fun same => ?_, ?_⟩
  · exact absurd (apart filled (by decide) same) (by decide)
  · rw [again]
    decide

/-- If `~0` were taken back first, the key `~1` would come back as a slash. -/
example : Text.replaceAll ['~', '1'] ['/'] (Text.replaceAll ['~', '0'] ['~'] ['~', '0', '1']) =
    ['/'] := by
  decide

end Path

end TableMotion
