import Cvise.ClexModes

namespace Cvise
set_option autoImplicit true
open Pattern

/-- Zero for the lowercase letters. -/
def notLower (c : UInt8) : Nat := if 97 ≤ c ∧ c ≤ 122 then 0 else 1

/-- Zero for the letter `x`. -/
def notX (c : UInt8) : Nat := if c = 120 then 0 else 1

/-- What a mode makes less of first: the rest is the length of the text and its order. -/
def TokenMode.weight : TokenMode → UInt8 → Nat
  | renameToks => notLower
  | xString => notX
  | _ => fun _ => 0

theorem stringRule_eq {p : Pattern UInt8} (h : (p, Action.token .string) ∈ clexRules) :
    p = stringPattern := by
  simpa [clexRules, lexicalRules_eq, numberPatterns] using h

theorem scanFile_text_ne (hl : l ∈ scanFile data) : l.text ≠ [] := by
  obtain ⟨before, after, hscan⟩ := List.append_of_mem hl
  exact (scanFile_read hscan).ne_nil

theorem string_length (hl : l ∈ scanFile data) (ha : l.action = .token .string)
    (hne : strdup l.text ≠ emptyString) : emptyString.length < l.text.length := by
  obtain ⟨before, after, hscan⟩ := List.append_of_mem hl
  obtain ⟨⟨p, hp, hmem⟩, -⟩ := (scanFile_read hscan).token ha
  rw [stringRule_eq hp] at hmem
  obtain ⟨start, body, hstart, htext, -, -⟩ :=
    (literalWord_iff string_stops (by decide)).1 (mem_stringPattern.1 hmem)
  rw [htext] at hne ⊢
  rcases hstart with rfl | rfl
  · cases body with
    | nil => exact absurd rfl hne
    | cons b body =>
      simp only [emptyString, List.nil_append, List.length_cons, List.length_append,
        List.length_nil]
      omega
  · simp only [emptyString, List.cons_append, List.length_cons, List.length_append,
      List.length_nil]
    omega

/-- How far an index is, as the program reads it. -/
def TokenMode.rank (mode : TokenMode) (idx : Nat) : Nat :=
  match mode with
  | rmTokPattern _ => idx % 2 ^ 32
  | _ => idx

/-- What a mode does with a file: it stops, or prints a smaller text for an index in range. -/
def TokenMode.Decreases (mode : TokenMode) (idx : Nat) (data : Bytes) : Prop :=
  (∃ out, mode.clex idx (.file data) = some ⟨71, out⟩) ∨
    ∃ out, mode.clex idx (.file data) = some ⟨51, out⟩ ∧
      TextLt mode.weight (· < ·) out data ∧
      mode.rank idx < data.length * 2 ^ 7 ∧ mode.rank idx < mode.rank (idx + 1)

theorem strdup_length_le (text : Bytes) : (strdup text).length ≤ text.length := by
  obtain ⟨cut, hcut⟩ := strdup_append text
  have hlen := congrArg List.length hcut
  rw [List.length_append] at hlen
  omega

theorem index_lt {idx n : Nat} (h : (idx : Int) < n) : idx < n * 2 ^ 7 := by
  have hlt := Int.ofNat_lt.1 h
  omega

/-- What the rounds of a loop over a file do: one that sets the flag prints less than it read, and
the count, which the index bounds then, grows by at most what was read. -/
structure LoopSpec {σ : Type} (w : UInt8 → Nat) (step : σ → Tok → σ × Bytes)
    (moved : σ → Bool) (count : σ → Int) (l : Lexeme) (t : Tok) : Prop where
  textLe : ∀ s, (TextLe w (· < ·) (step s t).2 l.text ∧ moved (step s t).1 = moved s) ∨
    TextLt w (· < ·) (step s t).2 l.text
  count_le : ∀ s, count (step s t).1 ≤ count s + l.text.length

/-- A loop over a file that ends with its flag set printed a smaller text. -/
theorem LoopSpec.decreases {σ : Type} {w : UInt8 → Nat} {step : σ → Tok → σ × Bytes}
    {moved : σ → Bool} {count : σ → Int}
    (hstep : ∀ l ∈ scanFile data, ∀ t, l.Gives t → LoopSpec w step moved count l t) {s : σ}
    (hs : moved s = false) (hcount : count s = 0)
    (hmoved : moved (printLoop step s (fileToks data)).1 = true) :
    TextLt w (· < ·) (printLoop step s (fileToks data)).2 data ∧
      count (printLoop step s (fileToks data)).1 ≤ data.length := by
  have htext := printLoop_textLe (fun l hl t ht => (hstep l hl t ht).textLe) s .single 0
  have hbound := printLoop_count (fun l hl t ht => (hstep l hl t ht).count_le) s .single 0
  rw [textOf_scanFile] at htext hbound
  rw [hcount, Int.zero_add] at hbound
  refine ⟨?_, hbound⟩
  rcases htext with ⟨-, hsame⟩ | hlt
  · rw [fileToks, hsame, hs] at hmoved
    cases hmoved
  · exact hlt

/-- Where the loops with `which` and `matched` stand. -/
def counted (idx : Nat) (s : Int × Bool) : Int := if s.2 then idx + 1 else s.1

theorem counted_lt {idx n : Nat} {s : Int × Bool} (hs : s.2 = true) (h : counted idx s ≤ n) :
    idx < n * 2 ^ 7 := by
  rw [counted, if_pos hs] at h
  omega

theorem deleteStep_spec (idx : Nat) (hl : l ∈ scanFile data) (ht : l.Gives t) :
    LoopSpec (fun _ => 0) (deleteStep idx) Prod.snd (counted idx) l t := by
  have hkept : TextLe (fun _ => 0) (· < ·) t.str l.text := ht.str ▸ strdup_textLe _ _ _
  have hpos := List.length_pos_iff.2 (scanFile_text_ne hl)
  constructor
  · intro s
    rw [deleteStep]
    split
    · rename_i hstring
      split
      · refine .inr (textLt_of_length ?_ (string_length hl (hstring.1 ▸ ht.action) ?_))
        · rw [weightOf_eq_zero fun _ _ => rfl]
          exact Nat.zero_le _
        · rw [← ht.str]
          exact hstring.2
      · exact .inl ⟨hkept, rfl⟩
    · exact .inl ⟨hkept, rfl⟩
  · rintro ⟨which, matched⟩
    rw [deleteStep, counted, counted]
    split
    · split
      · rename_i hidx
        subst hidx
        cases matched with
        | true => simp only [if_true]; omega
        | false => simp only [if_true, if_false, Bool.false_eq_true]; omega
      · cases matched with
        | true => simp only [if_true]; omega
        | false => simp only [if_false, Bool.false_eq_true]; omega
    · dsimp only
      omega

theorem deleteString_decreases (idx : Nat) (data : Bytes) :
    TokenMode.Decreases .deleteString idx data := by
  rw [TokenMode.Decreases, TokenMode.clex, clexMode_file, deleteString]
  cases hm : (printLoop (deleteStep idx) (0, false) (fileToks data)).1.2 with
  | false => exact .inl ⟨_, by simp only [hm]; rfl⟩
  | true =>
    obtain ⟨htext, hcount⟩ := LoopSpec.decreases
      (fun l hl t ht => deleteStep_spec idx hl ht) rfl rfl hm
    exact .inr ⟨_, by simp only [hm]; rfl, htext, counted_lt hm hcount, Nat.lt_succ_self idx⟩

theorem weightOf_notX_take (s : Bytes) (h : c ≠ 120) :
    weightOf notX (120 :: s) < weightOf notX (c :: s) := by
  rw [weightOf_cons, weightOf_cons, notX, notX, if_pos rfl, if_neg h]
  omega

theorem xChars_spec (idx : Nat) (s : Int × Bool) (text : Bytes) :
    ((xChars idx s text).2 = text ∧ (xChars idx s text).1.2 = s.2 ∨
      weightOf notX (xChars idx s text).2 < weightOf notX text) ∧
    weightOf notX (xChars idx s text).2 ≤ weightOf notX text ∧
    counted idx (xChars idx s text).1 ≤ counted idx s + text.length := by
  induction text generalizing s with
  | nil => exact ⟨.inl ⟨rfl, rfl⟩, Nat.le_refl _, Int.le_of_eq (Int.add_zero _).symm⟩
  | cons c text ih =>
    rw [List.length_cons]
    by_cases hc : c = 120
    · have hx : xChars idx s (c :: text) =
          ((xChars idx s text).1, c :: (xChars idx s text).2) := by
        rw [xChars, if_neg (not_not.2 hc)]
      obtain ⟨hsame, hle, hcount⟩ := ih s
      rw [hx]
      refine ⟨?_, Nat.add_le_add_left hle _, hcount.trans (by push_cast; omega)⟩
      rcases hsame with ⟨htext, hflag⟩ | hlt
      · exact .inl ⟨congrArg _ htext, hflag⟩
      · exact .inr (Nat.add_lt_add_left hlt _)
    · by_cases hidx : s.1 = idx
      · have hx : xChars idx s (c :: text) =
            ((xChars idx (s.1 + 1, true) text).1, 120 :: (xChars idx (s.1 + 1, true) text).2) := by
          rw [xChars, if_pos hc, if_pos hidx]
        obtain ⟨-, hle, hcount⟩ := ih (s.1 + 1, true)
        have hlt := weightOf_notX_take text hc
        have hrest : weightOf notX (120 :: (xChars idx (s.1 + 1, true) text).2) ≤
            weightOf notX (120 :: text) := Nat.add_le_add_left hle _
        rw [hx]
        refine ⟨.inr (hrest.trans_lt hlt), (hrest.trans_lt hlt).le, hcount.trans ?_⟩
        rw [counted, counted, if_pos rfl, hidx]
        split
        · push_cast
          omega
        · push_cast
          omega
      · have hx : xChars idx s (c :: text) =
            ((xChars idx (s.1 + 1, s.2) text).1, c :: (xChars idx (s.1 + 1, s.2) text).2) := by
          rw [xChars, if_pos hc, if_neg hidx]
        obtain ⟨hsame, hle, hcount⟩ := ih (s.1 + 1, s.2)
        rw [hx]
        refine ⟨?_, Nat.add_le_add_left hle _, hcount.trans ?_⟩
        · rcases hsame with ⟨htext, hflag⟩ | hlt
          · exact .inl ⟨congrArg _ htext, hflag⟩
          · exact .inr (Nat.add_lt_add_left hlt _)
        · rw [counted, counted]
          split
          · push_cast
            omega
          · push_cast
            omega

theorem xStep_spec (idx : Nat) (ht : l.Gives t) :
    LoopSpec notX (xStep idx) Prod.snd (counted idx) l t := by
  have hkept : TextLe notX (· < ·) t.str l.text := ht.str ▸ strdup_textLe _ _ _
  have hlen : t.str.length ≤ l.text.length := ht.str ▸ strdup_length_le l.text
  constructor
  · intro s
    rw [xStep]
    split
    · rcases (xChars_spec idx s t.str).1 with ⟨htext, hflag⟩ | hlt
      · exact .inl ⟨htext.symm ▸ hkept, hflag⟩
      · exact .inr (textLt_of_weight (hlt.trans_le hkept.weight))
    · exact .inl ⟨hkept, rfl⟩
  · intro s
    rw [xStep]
    split
    · have hcount := (xChars_spec idx s t.str).2.2
      omega
    · dsimp only
      omega

theorem xString_decreases (idx : Nat) (data : Bytes) :
    TokenMode.Decreases .xString idx data := by
  rw [TokenMode.Decreases, TokenMode.clex, clexMode_file, xString]
  cases hm : (printLoop (xStep idx) (0, false) (fileToks data)).1.2 with
  | false => exact .inl ⟨_, by simp only [hm]; rfl⟩
  | true =>
    obtain ⟨htext, hcount⟩ := LoopSpec.decreases (fun l _ t ht => xStep_spec idx ht) rfl rfl hm
    exact .inr ⟨_, by simp only [hm]; rfl, htext, counted_lt hm hcount, Nat.lt_succ_self idx⟩

/-- How much of the index `shorten_string` used up. -/
def shortened (idx : Nat) (s : Nat × Bool) : Int := if s.2 then idx + 1 else idx - s.1

theorem shortenStep_spec (idx : Nat) (ht : l.Gives t) :
    LoopSpec (fun _ => 0) shortenStep Prod.snd (shortened idx) l t := by
  have hkept : TextLe (fun _ => 0) (· < ·) t.str l.text := ht.str ▸ strdup_textLe _ _ _
  have hlen : t.str.length ≤ l.text.length := ht.str ▸ strdup_length_le l.text
  constructor
  · rintro ⟨rest, matched⟩
    rw [shortenStep]
    split
    · dsimp only
      split
      · exact .inl ⟨hkept, rfl⟩
      · rename_i hlt
        refine .inr (textLt_of_length ?_ ?_)
        · rw [weightOf_eq_zero fun _ _ => rfl]
          exact Nat.zero_le _
        · rw [List.length_append, stringRmChars, List.drop_drop, List.length_take,
            List.length_drop]
          omega
    · exact .inl ⟨hkept, rfl⟩
  · rintro ⟨rest, matched⟩
    rw [shortenStep, shortened, shortened]
    split
    · rename_i hstring
      rw [Bool.and_eq_true, Bool.not_eq_true'] at hstring
      obtain rfl := hstring.1
      dsimp only
      split
      · simp only [Bool.false_eq_true, if_false]
        omega
      · simp only [Bool.false_eq_true, if_false, if_true]
        omega
    · dsimp only
      omega

theorem shortenString_decreases (idx : Nat) (data : Bytes) :
    TokenMode.Decreases .shortenString idx data := by
  rw [TokenMode.Decreases, TokenMode.clex, clexMode_file, shortenString]
  cases hm : (printLoop shortenStep (idx, false) (fileToks data)).1.2 with
  | false => exact .inl ⟨_, by simp only [hm]; rfl⟩
  | true =>
    obtain ⟨htext, hcount⟩ := LoopSpec.decreases (fun l _ t ht => shortenStep_spec idx ht) rfl
      (Int.sub_self _) hm
    rw [shortened, if_pos hm] at hcount
    have hlt : idx < data.length * 2 ^ 7 := index_lt (by omega)
    exact .inr ⟨_, by simp only [hm]; rfl, htext, hlt, Nat.lt_succ_self idx⟩

/-- Where the loop over the pattern stands. -/
def windowed (start : Nat) (s : PatternLoop) : Int := if s.matched then start + 1 else s.which

theorem patternStep_spec (nToks start : Nat) (hl : l ∈ scanFile data) (ht : l.Gives t) :
    LoopSpec (fun _ => 0) (patternStep nToks start) PatternLoop.deleted (windowed start) l t := by
  have hkept : TextLe (fun _ => 0) (· < ·) t.str l.text := ht.str ▸ strdup_textLe _ _ _
  have hpos := List.length_pos_iff.2 (scanFile_text_ne hl)
  constructor
  · intro s
    rw [patternStep]
    split
    · exact .inl ⟨hkept, rfl⟩
    · dsimp only
      split
      · split
        · refine .inr (textLt_of_length ?_ hpos)
          rw [weightOf_eq_zero fun _ _ => rfl]
          exact Nat.zero_le _
        · exact .inl ⟨hkept, rfl⟩
      · exact .inl ⟨hkept, rfl⟩
  · intro s
    have hround : windowed start (patternStep nToks start s t).1 ≤ windowed start s + 1 := by
      rw [patternStep]
      split
      · dsimp only
        omega
      · have hmatched : ∀ s' : PatternLoop, s'.which = s.which + 1 →
            s'.matched = (s.matched || decide (s.which = start)) →
              windowed start s' ≤ windowed start s + 1 := by
          intro s' hwhich hs'
          rw [windowed, windowed, hwhich, hs']
          cases hm : s.matched with
          | true => simp only [Bool.true_or, if_true]; omega
          | false =>
            simp only [Bool.false_or, decide_eq_true_eq, Bool.false_eq_true, if_false]
            split
            · omega
            · omega
        dsimp only
        split
        · split
          · exact hmatched _ rfl rfl
          · exact hmatched _ rfl rfl
        · exact hmatched _ rfl rfl
    omega

/-- What the program reads for an index, unless that is negative. -/
theorem toInt_ofNat_mod {idx : Nat} (h : 0 ≤ (Int32.ofNat idx).toInt) :
    (Int32.ofNat idx).toInt = (idx % 2 ^ 32 : Nat) ∧ idx % 2 ^ 32 < 2 ^ 31 := by
  rw [Int32.toInt_ofNat', Int.bmod_def] at h ⊢
  simp only [Int32.size] at h ⊢
  split at h
  · rename_i hlow
    rw [if_pos hlow]
    omega
  · omega

theorem rmTokPattern_decreases {nToks : Int} (hn : 1 < nToks ∧ nToks ≤ 8) (idx : Nat)
    (data : Bytes) : TokenMode.Decreases (.rmTokPattern nToks) idx data := by
  obtain ⟨n, rfl⟩ := Int.eq_ofNat_of_zero_le (Int.le_of_lt (Int.lt_trans Int.zero_lt_one hn.1))
  rw [TokenMode.Decreases, TokenMode.clex, clexRmTokPattern_file hn, Int.toNat_natCast]
  by_cases hneg : (Int32.ofNat idx).toInt < 0
  · refine .inl ⟨(rmTokPattern n (Int32.ofNat idx) (fileToks data)).stdout, ?_⟩
    rw [← rmTokPattern_negative hneg n (fileToks data)]
  obtain ⟨hidx, hfits⟩ := toInt_ofNat_mod (Int.not_lt.1 hneg)
  have hrank : TokenMode.rank (.rmTokPattern n) idx < TokenMode.rank (.rmTokPattern n) (idx + 1) := by
    simp only [TokenMode.rank]
    omega
  have hstart : ((idx % 2 ^ 32 : Nat) : Int) >>> (n - 1) =
      (((idx % 2 ^ 32) >>> (n - 1) : Nat) : Int) := rfl
  rw [rmTokPattern, patternLoop_eq, hidx, hstart]
  dsimp only
  split
  · rename_i hok
    obtain ⟨hmatched, hdeleted⟩ := Bool.and_eq_true_iff.1 hok
    obtain ⟨htext, hcount⟩ := LoopSpec.decreases
      (fun l hl t ht => patternStep_spec n ((idx % 2 ^ 32) >>> (n - 1)) hl ht) rfl rfl hdeleted
    refine .inr ⟨_, rfl, htext, ?_, hrank⟩
    rw [windowed, if_pos hmatched] at hcount
    have hlt : idx % 2 ^ 32 / 2 ^ (n - 1) < data.length := by
      rw [← Nat.shiftRight_eq_div_pow]
      omega
    have hpow : 2 ^ (n - 1) ≤ 2 ^ 7 := Nat.pow_le_pow_right (by omega) (by omega)
    have hbound := (Nat.div_lt_iff_lt_mul (Nat.two_pow_pos (n - 1))).1 hlt
    exact hbound.trans_le (Nat.mul_le_mul_left _ hpow)
  · exact .inl ⟨_, rfl⟩

theorem length_fileToks_le (data : Bytes) : (fileToks data).length ≤ data.length := by
  have hplaced : ∀ ls toks, placed .single 0 ls = toks → (∀ l ∈ ls, l.text ≠ []) →
      toks.length ≤ (textOf ls).length := by
    intro ls toks htoks
    subst htoks
    refine placed_induction (motive := fun ls toks => (∀ l ∈ ls, l.text ≠ []) →
      toks.length ≤ (textOf ls).length) ?_ ?_ ?_ .single 0 ls
    · exact fun _ => Nat.le_refl _
    · intro l ls toks ih hne
      have hrest := ih (List.forall_mem_cons.1 hne).2
      rw [textOf_cons, List.length_append]
      omega
    · intro l t ls toks _ ih hne
      have hpos := List.length_pos_iff.2 (List.forall_mem_cons.1 hne).1
      have hrest := ih (List.forall_mem_cons.1 hne).2
      rw [textOf_cons, List.length_append, List.length_cons]
      omega
  have hle := hplaced (scanFile data) _ rfl fun l hl => scanFile_text_ne hl
  rw [textOf_scanFile] at hle
  exact hle

/-- The name that is to be given comes before the one that it is for. -/
theorem rename_textLt (hnew : IsLowerName newname) (h : shouldBeRenamed name newname = true) :
    TextLt notLower (· < ·) newname name := by
  have hzero : weightOf notLower newname = 0 :=
    weightOf_eq_zero fun c hc => if_pos (hnew.2 c hc)
  rw [shouldBeRenamed] at h
  split at h
  · rename_i hany
    obtain ⟨c, hc, hout⟩ := List.any_eq_true.1 hany
    refine textLt_of_weight ?_
    obtain ⟨s, t, rfl⟩ := List.append_of_mem hc
    have hone : notLower c = 1 := by
      refine if_neg fun hin => ?_
      rw [Bool.or_eq_true, decide_eq_true_eq, decide_eq_true_eq] at hout
      rcases hout with hlt | hlt
      · exact absurd hin.1 (UInt8.not_le.2 hlt)
      · exact absurd hin.2 (UInt8.not_le.2 hlt)
    rw [hzero, weightOf_append, weightOf_cons, hone]
    omega
  · split at h
    · cases h
    · rename_i hlen
      rcases Nat.lt_or_eq_of_le (Nat.not_lt.1 hlen) with hlt | he
      · exact textLt_of_length (hzero ▸ Nat.zero_le _) hlt
      · rcases Nat.eq_zero_or_pos (weightOf notLower name) with hw | hw
        · refine textLt_iff.2 (.inr ⟨hzero.trans hw.symm, .of_lex he ?_⟩)
          have hlt : newname < name := of_decide_eq_true h
          exact (List.lt_iff_lex_lt _ _).1 hlt
        · exact textLt_of_weight (hzero ▸ hw)

/-- A token in the loop of `print_renamed`; the flag says whether one was renamed. -/
def renameStep (idx : Nat) (newname : Bytes) (index : List Bytes) (renamed : Bool) (t : Tok) :
    Bool × Bytes :=
  if (t.marked newname index).id = idx then (true, newname) else (renamed, t.str)

theorem Tok.marked_str (newname : Bytes) (index : List Bytes) (t : Tok) :
    (t.marked newname index).str = t.str := by
  rw [Tok.marked]
  split
  · rfl
  · rfl

theorem printRenamed_eq (idx : Nat) (newname : Bytes) (index : List Bytes) (toks : List Tok)
    (renamed : Bool) : printRenamed idx newname (toks.map (Tok.marked newname index)) =
      (printLoop (renameStep idx newname index) renamed toks).2 := by
  induction toks generalizing renamed with
  | nil => rfl
  | cons t toks ih =>
    have hcons : printRenamed idx newname ((t :: toks).map (Tok.marked newname index)) =
        (if (t.marked newname index).id = idx then newname else (t.marked newname index).str) ++
          printRenamed idx newname (toks.map (Tok.marked newname index)) := rfl
    rw [hcons, printLoop, Tok.marked_str, ih (renameStep idx newname index renamed t).1, renameStep]
    split
    · rfl
    · rfl

theorem renameStep_flag (idx : Nat) (newname : Bytes) (index : List Bytes) (toks : List Tok)
    (renamed : Bool) (h : renamed = true ∨ ∃ t ∈ toks, (t.marked newname index).id = idx) :
    (printLoop (renameStep idx newname index) renamed toks).1 = true := by
  induction toks generalizing renamed with
  | nil =>
    rcases h with h | ⟨t, ht, -⟩
    · exact h
    · cases ht
  | cons t toks ih =>
    rw [printLoop]
    refine ih _ ?_
    rw [renameStep]
    by_cases hid : (t.marked newname index).id = idx
    · rw [if_pos hid]
      exact .inl rfl
    · rw [if_neg hid]
      rcases h with h | ⟨u, hu, huid⟩
      · exact .inl h
      · rcases List.mem_cons.1 hu with rfl | hu
        · exact absurd huid hid
        · exact .inr ⟨u, hu, huid⟩

theorem renameToks_eq {idx : Nat} {toks : List Tok} (h : unusedName toks = some newname) :
    renameToks idx toks =
      if ((indexToks newname toks).1.length : Int) ≤ idx then some ⟨71, []⟩
      else some ⟨51, printRenamed idx newname (indexToks newname toks).2⟩ := by
  have hpos : ¬ (idx : Int) < 0 := Int.not_lt.2 (Int.natCast_nonneg idx)
  simp only [renameToks, h, Option.bind_eq_bind, Option.bind_some, if_neg hpos]

theorem renameStep_spec {idx : Nat} {index : List Bytes} {l : Lexeme} {t : Tok}
    (hnew : IsLowerName newname) (hnodup : index.Nodup) (hname : index[idx]? = some name)
    (hcounts : shouldBeRenamed name newname = true) (ht : l.Gives t) :
    LoopSpec notLower (renameStep idx newname index) id (fun _ => 0) l t := by
  have hkept : TextLe notLower (· < ·) t.str l.text := ht.str ▸ strdup_textLe _ _ _
  constructor
  · intro s
    rw [renameStep]
    split
    · rename_i hid
      obtain ⟨-, rfl⟩ := (Tok.marked_id ht.id hnodup hname hcounts).1 hid
      have hlt := rename_textLt hnew hcounts
      rcases hkept with he | hlt'
      · exact .inr (he ▸ hlt)
      · exact .inr (hlt.trans hlt')
    · exact .inl ⟨hkept, rfl⟩
  · intro s
    omega

theorem fileToks_id (ht : t ∈ fileToks data) : t.id = -1 := by
  have hplaced : ∀ t ∈ fileToks data, t.id = -1 := by
    refine placed_induction (motive := fun _ toks => ∀ t ∈ toks, t.id = -1) ?_ ?_ ?_
      .single 0 (scanFile data)
    · exact List.forall_mem_nil _
    · exact fun _ _ _ ih => ih
    · exact fun _ _ _ _ hl ih => List.forall_mem_cons.2 ⟨hl.id, ih⟩
  exact hplaced t ht

theorem renameToks_decreases (idx : Nat) (data : Bytes) :
    TokenMode.Decreases .renameToks idx data := by
  obtain ⟨newname, hname⟩ := unusedName_some (fileToks data)
  have hfirst := unusedName_first hname
  obtain ⟨hnodup, hmem, htoks⟩ := indexToks_indexed newname (fileToks data)
  rw [TokenMode.Decreases, TokenMode.clex, clexRenameToks_file, renameToks_eq hname, htoks,
    printRenamed_eq idx newname _ _ false]
  generalize (indexToks newname (fileToks data)).1 = index at hnodup hmem
  split
  · exact .inl ⟨_, rfl⟩
  · rename_i hlt
    have hlt : idx < index.length := by omega
    have hget : index[idx]? = some index[idx] := List.getElem?_eq_getElem hlt
    obtain ⟨t, ht, hkind, hcounts, hstr⟩ := (hmem index[idx]).1 (List.getElem_mem hlt)
    rw [hstr] at hcounts
    refine .inr ⟨_, rfl, ?_, ?_⟩
    · have hid := (Tok.marked_id (fileToks_id ht) hnodup hget hcounts).2 ⟨hkind, hstr⟩
      have hflag := renameStep_flag idx newname index (fileToks data) false (.inr ⟨t, ht, hid⟩)
      exact (LoopSpec.decreases
        (fun l _ t ht => renameStep_spec hfirst.lower hnodup hget hcounts ht) rfl rfl hflag).1
    · have hsub : index ⊆ (fileToks data).map (·.str) := by
        intro s hs
        obtain ⟨u, hu, -, -, rfl⟩ := (hmem s).1 hs
        exact List.mem_map_of_mem hu
      have hlen := (List.subperm_of_subset hnodup hsub).length_le
      have hfile := length_fileToks_le data
      rw [List.length_map] at hlen
      have hbound : idx < data.length * 2 ^ 7 := index_lt (by omega)
      exact ⟨hbound, Nat.lt_succ_self idx⟩

/-- The number of a token pattern is one that the program takes. -/
def TokenMode.Accepted : TokenMode → Prop
  | rmTokPattern nToks => 1 < nToks ∧ nToks ≤ 8
  | _ => True

theorem TokenMode.decreases {mode : TokenMode} (h : mode.Accepted) (idx : Nat) (data : Bytes) :
    mode.Decreases idx data := by
  cases mode with
  | renameToks => exact renameToks_decreases idx data
  | deleteString => exact deleteString_decreases idx data
  | shortenString => exact shortenString_decreases idx data
  | xString => exact xString_decreases idx data
  | rmTokPattern nToks => exact rmTokPattern_decreases h idx data

/-- What the pass does with a file, for a mode of the kind above. -/
theorem clexPass_transform {mode : TokenMode} (h : mode.Accepted) (idx : Nat) (data : Bytes) :
    (clexPass mode.clex).transform idx data = (.stop, data) ∨
      ∃ out, (clexPass mode.clex).transform idx data = (.ok, out) ∧
        TextLt mode.weight (· < ·) out data ∧
        mode.rank idx < data.length * 2 ^ 7 ∧ mode.rank idx < mode.rank (idx + 1) := by
  rcases mode.decreases h idx data with ⟨out, hout⟩ | ⟨out, hout, hlt, hidx⟩
  · refine .inl ?_
    simp only [clexPass, hout]
  · refine .inr ⟨out, ?_, hlt, hidx⟩
    simp only [clexPass, hout]

/-- The passes over the tokens of a file end, whatever the tests say. -/
theorem clexPass_ends {mode : TokenMode} (h : mode.Accepted) (data : Bytes) :
    (clexPass mode.clex).Ends (0, data) := by
  have hbytes : WellFounded (· < · : UInt8 → UInt8 → Prop) :=
    Subrelation.wf (fun hlt => UInt8.lt_iff_toNat_lt.1 hlt)
      (InvImage.wf UInt8.toNat Nat.lt_wfRel.wf)
  have hrank : ∀ idx data idx', (clexPass mode.clex).advance idx data = some idx' →
      ((clexPass mode.clex).transform idx data).1 ≠ .stop →
        mode.rank idx < data.length * 2 ^ 7 ∧ mode.rank idx < mode.rank idx' := by
    intro idx data idx' hadvance hstop
    obtain rfl := Option.some.inj hadvance
    rcases clexPass_transform h idx data with hout | ⟨out, -, -, hidx⟩
    · exact absurd (congrArg Prod.fst hout) hstop
    · exact hidx
  have hsmaller : ∀ idx data out, (clexPass mode.clex).transform idx data = (.ok, out) →
      out ≠ data → TextLt mode.weight (· < ·) out data := by
    intro idx data out hok _
    rcases clexPass_transform h idx data with hout | ⟨out', hout, hlt, -⟩
    · cases hok.symm.trans hout
    · obtain ⟨-, rfl⟩ := Prod.mk.inj (hok.symm.trans hout)
      exact hlt
  exact SerialPass.ends_of_counting (textLt_wf hbytes) hrank hsmaller (0, data)

theorem clexPass_ends_pattern :
    (clexPass (TokenMode.rmTokPattern 4).clex).Ends (0, [97, 59, 10]) := by
  have haccepted : (TokenMode.rmTokPattern 4).Accepted := ⟨by decide, by decide⟩
  exact clexPass_ends haccepted _

end Cvise
