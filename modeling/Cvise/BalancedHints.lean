import Cvise.BalancedPass
import Mathlib.Data.List.TakeWhile

namespace Cvise
set_option autoImplicit true

namespace BalancedPass

/-- What the configurations have in common. -/
structure Config.Sane (config : Config) : Prop where
  bracketsDiffer : config.search.openCh ≠ config.search.closeCh
  replacement : ∀ b ∈ config.replacement, b ≠ config.search.openCh ∧ b ≠ config.search.closeCh
  replaces : config.replacement ≠ [] → config.toDelete = .all
  searchPrefix : config.searchPrefix = none ∨
    (config.searchPrefix = some equalsPrefix ∧ config.toDelete = .all)
  openNotBlank : isSpaceByte config.search.openCh = false
  closeNotBlank : isSpaceByte config.search.closeCh = false
  notEquals : config.search.openCh ≠ 61 ∧ config.search.closeCh ≠ 61

theorem config_sane (h : getConfig arg = some config) : config.Sane := by
  have hbrackets : ∀ e : BalancedExpr, e.openCh ≠ e.closeCh ∧ isSpaceByte e.openCh = false ∧
      isSpaceByte e.closeCh = false ∧ e.openCh ≠ 61 ∧ e.closeCh ≠ 61 := by
    intro e
    cases e <;> decide
  have hall : ∀ x ∈ configs, (∀ b ∈ x.2.replacement, b = 48 ∨ b = 59) ∧
      (x.2.replacement ≠ [] → x.2.toDelete = .all) ∧ (x.2.searchPrefix = none ∨
        (x.2.searchPrefix = some equalsPrefix ∧ x.2.toDelete = .all)) := by
    simp [configs]
  have hplain : ∀ e : BalancedExpr, ∀ b : UInt8, b = 48 ∨ b = 59 → b ≠ e.openCh ∧ b ≠ e.closeCh := by
    intro e b hb
    rcases hb with rfl | rfl
    · cases e <;> decide
    · cases e <;> decide
  obtain ⟨x, hx, rfl⟩ := Option.map_eq_some_iff.1 h
  obtain ⟨hreplacement, hdelete, hprefix⟩ := hall x (List.mem_of_find?_eq_some hx)
  obtain ⟨hdiffer, hopen, hclose, hequals⟩ := hbrackets x.2.search
  exact ⟨hdiffer, fun b hb => hplain _ b (hreplacement b hb), hdelete, hprefix, hopen, hclose,
    hequals⟩

theorem longest_never (text : List α) : (Pattern.never : Pattern α).longest text = none := by
  induction text with
  | nil => rfl
  | cons a text ih =>
    rw [Pattern.longest]
    simp only [Pattern.deriv, ih]
    rfl

theorem longest_star_sat (p : α → Bool) (text : List α) :
    (Pattern.star (.sat p)).longest text = some (text.takeWhile p).length := by
  induction text with
  | nil => rfl
  | cons a text ih =>
    rw [Pattern.longest, List.takeWhile_cons]
    cases hp : p a with
    | true =>
      have hderiv : (Pattern.star (.sat p)).deriv a = .star (.sat p) := by
        simp [Pattern.deriv, hp, Pattern.andThen]
      rw [hderiv, ih]
      rfl
    | false =>
      have hderiv : (Pattern.star (.sat p)).deriv a = .never := by
        simp [Pattern.deriv, hp, Pattern.andThen]
      rw [hderiv, longest_never]
      rfl

theorem longest_equals (text : Bytes) : equalsPrefix.longest (61 :: text) =
    some ((text.takeWhile isSpaceByte).length + 1) := by
  have hderiv : equalsPrefix.deriv 61 = .star (.sat isSpaceByte) := by
    simp [equalsPrefix, Pattern.deriv, Pattern.nullable, Pattern.andThen]
  rw [Pattern.longest, hderiv, longest_star_sat]

theorem longest_not_equals (hb : b ≠ 61) (text : Bytes) :
    equalsPrefix.longest (b :: text) = none := by
  have hderiv : equalsPrefix.deriv b = .never := by
    simp [equalsPrefix, Pattern.deriv, Pattern.nullable, Pattern.andThen, hb]
  rw [Pattern.longest, hderiv, longest_never]
  rfl

theorem finditer_equals (pos : Nat) (text : Bytes) : finditer equalsPrefix pos (61 :: text) =
    (pos, pos + ((text.takeWhile isSpaceByte).length + 1)) ::
      finditer equalsPrefix (pos + ((text.takeWhile isSpaceByte).length + 1))
        (text.drop (text.takeWhile isSpaceByte).length) := by
  rw [finditer, longest_equals]

theorem finditer_not_equals (hb : b ≠ 61) (pos : Nat) (text : Bytes) :
    finditer equalsPrefix pos (b :: text) = finditer equalsPrefix (pos + 1) text := by
  rw [finditer, longest_not_equals hb]

theorem blank_ne_equals (h : isSpaceByte b = true) : b ≠ 61 := by
  rintro rfl
  exact absurd h (by decide)

/-- A text starts with some blanks, and then with something else. -/
theorem blanks_split (text : Bytes) : ∃ blanks rest, text = blanks ++ rest ∧
    text.takeWhile isSpaceByte = blanks ∧ (∀ b ∈ blanks, isSpaceByte b = true) ∧
      ∀ b ∈ rest.head?, isSpaceByte b = false := by
  induction text with
  | nil => exact ⟨[], [], rfl, rfl, by simp, by simp⟩
  | cons b text ih =>
    obtain ⟨blanks, rest, rfl, htake, hblanks, hrest⟩ := ih
    cases hb : isSpaceByte b with
    | true =>
      exact ⟨b :: blanks, rest, rfl, by rw [List.takeWhile_cons_of_pos hb, htake],
        List.forall_mem_cons.2 ⟨hb, hblanks⟩, hrest⟩
    | false =>
      refine ⟨[], b :: (blanks ++ rest), rfl, ?_, by simp, by simp [hb]⟩
      rw [List.takeWhile_cons_of_neg (by simp [hb])]

theorem mem_finditer (pos : Nat) (text : Bytes) : (k, e) ∈ finditer equalsPrefix pos text ↔
    ∃ i, k = pos + i ∧ text[i]? = some 61 ∧
      e = k + 1 + ((text.drop (i + 1)).takeWhile isSpaceByte).length := by
  induction hn : text.length using Nat.strong_induction_on generalizing pos text with
  | _ n ih =>
    cases text with
    | nil => simp [finditer]
    | cons b text =>
      subst hn
      by_cases hb : b = 61
      · subst hb
        obtain ⟨blanks, rest, rfl, htake, hblanks, -⟩ := blanks_split text
        have hdrop (j : Nat) : (blanks ++ rest).drop (blanks.length + j) = rest.drop j := by
          rw [← List.drop_drop, List.drop_left]
        have hless : rest.length < (61 :: (blanks ++ rest)).length := by
          rw [List.length_cons, List.length_append]
          omega
        rw [finditer_equals, htake, List.drop_left, List.mem_cons, ih _ hless _ _ rfl]
        constructor
        · rintro (he | ⟨i, rfl, hi, rfl⟩)
          · obtain ⟨rfl, rfl⟩ := Prod.mk.inj he
            refine ⟨0, rfl, rfl, ?_⟩
            rw [List.drop_succ_cons, List.drop_zero, htake]
            omega
          · refine ⟨blanks.length + 1 + i, by omega, ?_, ?_⟩
            · rw [Nat.add_right_comm, List.getElem?_cons_succ, List.getElem?_append_right (by omega),
                Nat.add_sub_cancel_left, hi]
            · rw [show blanks.length + 1 + i + 1 = (blanks.length + (i + 1)) + 1 by omega,
                List.drop_succ_cons, hdrop]
        · rintro ⟨i, rfl, hi, rfl⟩
          cases i with
          | zero =>
            left
            rw [List.drop_succ_cons, List.drop_zero, htake]
            exact Prod.ext rfl (by simp only; omega)
          | succ i =>
            right
            rw [List.getElem?_cons_succ] at hi
            rcases Nat.lt_or_ge i blanks.length with hlt | hge
            · rw [List.getElem?_append_left hlt] at hi
              exact absurd rfl (blank_ne_equals (hblanks 61 (List.mem_of_getElem? hi)))
            · obtain ⟨j, rfl⟩ := Nat.exists_eq_add_of_le hge
              rw [List.getElem?_append_right hge, Nat.add_sub_cancel_left] at hi
              refine ⟨j, by omega, hi, ?_⟩
              rw [List.drop_succ_cons, Nat.add_assoc blanks.length, hdrop]
      · rw [finditer_not_equals hb, ih _ (Nat.lt_succ_self _) _ _ rfl]
        constructor
        · rintro ⟨i, rfl, hi, he⟩
          exact ⟨i + 1, by omega, hi, he⟩
        · rintro ⟨i, rfl, hi, he⟩
          cases i with
          | zero => exact absurd (Option.some.inj hi) hb
          | succ i => exact ⟨i, by omega, hi, he⟩

theorem finditer_pairwise (pos : Nat) (text : Bytes) :
    (finditer equalsPrefix pos text).Pairwise fun x y => x.2 < y.2 := by
  induction hn : text.length using Nat.strong_induction_on generalizing pos text with
  | _ n ih =>
    cases text with
    | nil => simp [finditer]
    | cons b text =>
      subst hn
      by_cases hb : b = 61
      · subst hb
        rw [finditer_equals]
        refine .cons (fun x hx => ?_) (ih _ ?_ _ _ rfl)
        · obtain ⟨i, hk, -, he⟩ := (mem_finditer _ _).1 (show (x.1, x.2) ∈ _ from hx)
          simp only
          omega
        · rw [List.length_drop, List.length_cons]
          omega
      · rw [finditer_not_equals hb]
        exact ih _ (Nat.lt_succ_self _) _ _ rfl

/-- The equals sign that has nothing but blanks between it and position `i`. -/
def prefixBefore (contents : Bytes) (i : Nat) : Option Nat :=
  (List.range i).find? fun k =>
    contents[k]? = some 61 && ((contents.take i).drop (k + 1)).all isSpaceByte

theorem prefixBefore_eq_some : prefixBefore contents i = some k ↔ k < i ∧ contents[k]? = some 61 ∧
    ∀ b ∈ (contents.take i).drop (k + 1), isSpaceByte b = true := by
  rw [prefixBefore, List.find?_range_eq_some]
  simp only [Bool.and_eq_true, decide_eq_true_eq, List.all_eq_true, Bool.not_eq_true',
    List.mem_range]
  constructor
  · intro h
    exact ⟨h.2.1, h.1⟩
  · rintro ⟨hlt, hk, hblank⟩
    refine ⟨⟨hk, hblank⟩, hlt, fun j hj => ?_⟩
    -- An earlier one has this one behind it, which is no blank.
    rw [← Bool.not_eq_true, Bool.and_eq_true, List.all_eq_true]
    rintro ⟨-, hall⟩
    refine blank_ne_equals (hall 61 ?_) rfl
    refine List.mem_of_getElem? (i := k - (j + 1)) ?_
    rw [List.getElem?_drop, show j + 1 + (k - (j + 1)) = k by omega, List.getElem?_take_of_lt hlt, hk]

/-- A match ends where a byte comes that is no blank. -/
theorem mem_finditer_iff (hi : contents[i]? = some b) (hb : isSpaceByte b = false) :
    (k, i) ∈ finditer equalsPrefix 0 contents ↔ prefixBefore contents i = some k := by
  rw [mem_finditer, prefixBefore_eq_some]
  constructor
  · rintro ⟨j, rfl, hj, he⟩
    rw [Nat.zero_add] at he ⊢
    refine ⟨by omega, hj, fun x hx => ?_⟩
    obtain ⟨blanks, rest, hsplit, htake, hblanks, -⟩ := blanks_split (contents.drop (j + 1))
    rw [htake] at he
    rw [List.drop_take, hsplit, show i - (j + 1) = blanks.length by omega, List.take_left] at hx
    exact hblanks x hx
  · rintro ⟨hlt, hk, hblank⟩
    refine ⟨k, (Nat.zero_add k).symm, hk, ?_⟩
    have hlen : i < contents.length := (List.getElem?_eq_some_iff.1 hi).1
    have hrest : contents.drop (k + 1) = (contents.take i).drop (k + 1) ++ contents.drop i := by
      conv_lhs => rw [← List.take_append_drop i contents]
      rw [List.drop_append_of_le_length]
      rw [List.length_take]
      omega
    have hnext : contents.drop i = b :: contents.drop (i + 1) := by
      rw [List.drop_eq_getElem_cons hlen]
      rw [List.getElem?_eq_getElem hlen] at hi
      rw [Option.some.inj hi]
    rw [hrest, List.takeWhile_append_of_pos hblank, hnext,
      List.takeWhile_cons_of_neg (by simp [hb]), List.append_nil, List.length_drop, List.length_take]
    omega

/-- Where the hint of an opening bracket starts; nowhere without the prefix that the mode asks for. -/
def startOf (config : Config) (contents : Bytes) (i : Nat) : Option Nat :=
  if config.searchPrefix.isSome then prefixBefore contents i else some i

/-- The prefixes that are left, where those before have ended before the position. -/
def Behind (all left : List (Nat × Nat)) (pos : Nat) : Prop :=
  ∃ passed, all = passed ++ left ∧ ∀ x ∈ passed, x.2 < pos

theorem Behind.mono (h : Behind all left pos) (hle : pos ≤ pos') : Behind all left pos' := by
  obtain ⟨passed, hall, hlt⟩ := h
  exact ⟨passed, hall, fun x hx => (hlt x hx).trans_le hle⟩

theorem getTouchingPrefix_eq (hall : all.Pairwise fun x y : Nat × Nat => x.2 < y.2)
    (h : Behind all left pos) :
    (∀ k, (getTouchingPrefix pos left).1 = some k ↔ (k, pos) ∈ all) ∧
      Behind all (getTouchingPrefix pos left).2 pos := by
  obtain ⟨passed, rfl, hlt⟩ := h
  have hsplit := List.takeWhile_append_dropWhile (p := fun x : Nat × Nat => decide (x.2 < pos))
    (l := left)
  have hpassed : ∀ x ∈ passed ++ left.takeWhile fun x => decide (x.2 < pos), x.2 < pos := by
    intro x hx
    rcases List.mem_append.1 hx with hx | hx
    · exact hlt x hx
    · simpa using List.mem_takeWhile_imp hx
  have hbehind : passed ++ left = (passed ++ left.takeWhile fun x => decide (x.2 < pos)) ++
      left.dropWhile fun x => decide (x.2 < pos) := by
    rw [List.append_assoc, hsplit]
  rw [getTouchingPrefix]
  split
  · rename_i hnil
    rw [hnil, List.append_nil] at hbehind
    refine ⟨fun k => iff_of_false (Option.some_ne_none k).symm fun hk => ?_, _, ?_, hpassed⟩
    · rw [hbehind] at hk
      exact absurd (hpassed _ hk) (Nat.lt_irrefl pos)
    · rw [List.append_nil]
      exact hbehind
  · rename_i p rest hrest
    rw [hrest] at hbehind
    refine ⟨fun k => ?_, _, hbehind, hpassed⟩
    have hp : ¬ p.2 < pos := by
      have hhead := List.head?_dropWhile_not (fun x : Nat × Nat => decide (x.2 < pos)) left
      rw [hrest] at hhead
      simpa using hhead
    rw [hbehind, List.pairwise_append] at hall
    obtain ⟨hfirst, -⟩ := List.pairwise_cons.1 hall.2.1
    rw [hbehind, List.mem_append, List.mem_cons]
    split
    · rename_i he
      constructor
      · intro hk
        exact .inr (.inl (Prod.ext (Option.some.inj hk).symm he.symm))
      · rintro (hk | hk | hk)
        · exact absurd (hpassed _ hk) (Nat.lt_irrefl pos)
        · rw [← hk]
        · have hlate := hfirst _ hk
          exact absurd hlate (by simp [he])
    · rename_i he
      refine iff_of_false (Option.some_ne_none k).symm ?_
      rintro (hk | hk | hk)
      · exact absurd (hpassed _ hk) (Nat.lt_irrefl pos)
      · exact he (by rw [← hk])
      · have hlate := hfirst _ hk
        simp only at hlate
        omega

/-- `prefixes`. -/
def prefixesOf (config : Config) (contents : Bytes) : List (Nat × Nat) :=
  match config.searchPrefix with
  | none => []
  | some p => finditer p 0 contents

/-- What is pushed for an opening bracket. -/
def pushed (config : Config) (pos : Nat) (left : List (Nat × Nat)) :
    Option Nat × List (Nat × Nat) :=
  if config.searchPrefix.isSome then getTouchingPrefix pos left else (some pos, left)

theorem pushed_eq {config : Config} (hsane : config.Sane)
    (hb : contents[n]? = some config.search.openCh)
    (hleft : Behind (prefixesOf config contents) left n) :
    (pushed config n left).1 = startOf config contents n ∧
      Behind (prefixesOf config contents) (pushed config n left).2 (n + 1) := by
  rw [pushed, startOf]
  rcases hsane.searchPrefix with hnone | ⟨hsome, -⟩
  · rw [hnone]
    exact ⟨rfl, hleft.mono (Nat.le_succ n)⟩
  · have hall : prefixesOf config contents = finditer equalsPrefix 0 contents := by
      rw [prefixesOf, hsome]
    rw [hall] at hleft ⊢
    obtain ⟨hstart, hbehind⟩ := getTouchingPrefix_eq (finditer_pairwise 0 contents) hleft
    rw [hsome]
    refine ⟨Option.ext fun k => ?_, hbehind.mono (Nat.le_succ n)⟩
    exact (hstart k).trans (mem_finditer_iff hb hsane.openNotBlank)

section scan

variable {config : Config} (pathId : Option Nat) (activeStack : List (Option Nat))
  (left : List (Nat × Nat)) (n : Nat) (rest : Bytes)

theorem scanFrom_opener : scanFrom config pathId activeStack left n (config.search.openCh :: rest) =
    scanFrom config pathId ((pushed config n left).1 :: activeStack) (pushed config n left).2
      (n + 1) rest := by
  rw [scanFrom.eq_def]
  simp only [if_pos]
  rfl

theorem scanFrom_closer (hne : config.search.openCh ≠ config.search.closeCh) (start : Option Nat) :
    scanFrom config pathId (start :: activeStack) left n (config.search.closeCh :: rest) =
      (createHint config pathId start n).toList ++
        scanFrom config pathId activeStack left (n + 1) rest := by
  rw [scanFrom.eq_def]
  simp only [if_neg hne.symm, if_pos]

theorem scanFrom_stray (hne : config.search.openCh ≠ config.search.closeCh) :
    scanFrom config pathId [] left n (config.search.closeCh :: rest) =
      scanFrom config pathId [] left (n + 1) rest := by
  rw [scanFrom.eq_def]
  simp only [if_neg hne.symm, if_pos]

theorem scanFrom_other (ho : b ≠ config.search.openCh) (hc : b ≠ config.search.closeCh) :
    scanFrom config pathId activeStack left n (b :: rest) =
      scanFrom config pathId activeStack left (n + 1) rest := by
  rw [scanFrom.eq_def]
  simp only [if_neg ho, if_neg hc]

end scan

theorem scanFrom_eq {config : Config} (hsane : config.Sane) (pathId : Option Nat)
    (stack : List Nat) (hrest : contents.drop n = rest)
    (hleft : Behind (prefixesOf config contents) left n) :
    scanFrom config pathId (stack.map (startOf config contents)) left n rest =
      (Brackets.stackPairs config.search.openCh config.search.closeCh stack n rest).filterMap
        fun x => createHint config pathId (startOf config contents x.1) x.2 := by
  have hne := hsane.bracketsDiffer
  induction rest generalizing n stack left with
  | nil => rw [scanFrom.eq_def, Brackets.stackPairs.eq_def]; rfl
  | cons b rest ih =>
    have hb : contents[n]? = some b := by
      have hget : (contents.drop n)[0]? = contents[n + 0]? := List.getElem?_drop
      rw [hrest, Nat.add_zero] at hget
      exact hget.symm
    have hrest' : contents.drop (n + 1) = rest := by
      rw [← List.drop_drop, hrest]
      rfl
    by_cases ho : b = config.search.openCh
    · rw [ho] at hb ⊢
      obtain ⟨hstart, hbehind⟩ := pushed_eq hsane hb hleft
      rw [scanFrom_opener, Brackets.stackPairs_opener, hstart, ← List.map_cons]
      exact ih (n :: stack) hrest' hbehind
    by_cases hc : b = config.search.closeCh
    · rw [hc]
      cases stack with
      | nil =>
        rw [List.map_nil, scanFrom_stray _ _ _ _ hne, Brackets.stackPairs_stray hne]
        exact ih [] hrest' (hleft.mono (Nat.le_succ n))
      | cons p stack =>
        rw [List.map_cons, scanFrom_closer _ _ _ _ _ hne, Brackets.stackPairs_closer hne,
          ih stack hrest' (hleft.mono (Nat.le_succ n))]
        rw [List.filterMap_cons]
        cases createHint config pathId (startOf config contents p) n with
        | none => rfl
        | some h => rfl
    · rw [scanFrom_other _ _ _ _ _ ho hc, Brackets.stackPairs_other ho hc]
      exact ih stack hrest' (hleft.mono (Nat.le_succ n))

/-- The pairs of a file, in the order of their closing brackets. -/
def pairsOf (config : Config) (contents : Bytes) : List (Nat × Nat) :=
  Brackets.stackPairs config.search.openCh config.search.closeCh [] 0 contents

theorem generateHintsForFile_eq {config : Config} (hsane : config.Sane) (pathId : Option Nat)
    (contents : Bytes) : generateHintsForFile config pathId contents =
      (pairsOf config contents).filterMap fun x =>
        createHint config pathId (startOf config contents x.1) x.2 :=
  scanFrom_eq hsane pathId [] (List.drop_zero) ⟨[], rfl, fun _ hx => absurd hx List.not_mem_nil⟩

/-- The ranges that a mode prescribes for the pair at `i` and `j`, whose hint starts at `start`. -/
def prescribedRanges (deletion : Deletion) (start i j : Nat) : List (Nat × Nat) :=
  match deletion with
  | .all => [(start, j + 1)]
  | .only => [(i, i + 1), (j, j + 1)]
  | .inside => [(i + 1, j)]

/-- The hint that a mode prescribes for a pair: none without the prefix that the mode asks for, and
none where there is nothing between the brackets for a mode that deletes what is between them. -/
def prescribedHint (config : Config) (pathId : Option Nat) (contents : Bytes) (x : Nat × Nat) :
    Option Hint :=
  match startOf config contents x.1 with
  | none => none
  | some start =>
    if config.toDelete = .inside ∧ x.2 = x.1 + 1 then none
    else some { patches := (prescribedRanges config.toDelete start x.1 x.2).map fun r =>
      { left := some r.1, right := some r.2, path := pathId
        value := if config.replacement = [] then none else some 0 } }

theorem createHint_eq {config : Config} (hsane : config.Sane) (pathId : Option Nat)
    (hlt : x.1 < x.2) : createHint config pathId (startOf config contents x.1) x.2 =
      prescribedHint config pathId contents x := by
  obtain ⟨i, j⟩ := x
  have hij : i < j := hlt
  rw [prescribedHint]
  cases hstart : startOf config contents i with
  | none => rfl
  | some start =>
    rw [createHint]
    cases hd : config.toDelete with
    | all => by_cases hr : config.replacement = [] <;> simp [prescribedRanges, hr]
    | only =>
      have hr : config.replacement = [] := by
        by_contra hr
        cases hd.symm.trans (hsane.replaces hr)
      have hp : start = i := by
        rcases hsane.searchPrefix with hnone | ⟨-, hall⟩
        · rw [startOf, hnone] at hstart
          exact (Option.some.inj hstart).symm
        · cases hd.symm.trans hall
      simp [prescribedRanges, hr, hp]
    | inside =>
      have hr : config.replacement = [] := by
        by_contra hr
        cases hd.symm.trans (hsane.replaces hr)
      have hp : start = i := by
        rcases hsane.searchPrefix with hnone | ⟨-, hall⟩
        · rw [startOf, hnone] at hstart
          exact (Option.some.inj hstart).symm
        · cases hd.symm.trans hall
      subst hp
      by_cases hempty : j = start + 1
      · simp [hempty]
      · have hle : ¬ j - start ≤ 1 := by omega
        simp [hempty, hle, prescribedRanges, hr]

theorem hints_eq_pairs {config : Config} (hsane : config.Sane) (pathId : Option Nat)
    (contents : Bytes) : generateHintsForFile config pathId contents =
      (pairsOf config contents).filterMap (prescribedHint config pathId contents) := by
  rw [generateHintsForFile_eq hsane]
  refine List.filterMap_congr fun x hx => createHint_eq hsane pathId ?_
  exact ((Brackets.mem_stackPairs hsane.bracketsDiffer).1 (show (x.1, x.2) ∈ _ from hx)).lt

end BalancedPass

end Cvise
