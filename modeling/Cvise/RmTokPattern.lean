import Cvise.RmToks
import Mathlib.Data.Nat.Init
import Mathlib.Data.Finset.Max

namespace Cvise
set_option autoImplicit true

/-- The variables of the loop of `rm_tok_pattern`. -/
structure PatternLoop where
  which : Int
  started : Bool
  matched : Bool
  deleted : Bool
  pat : Nat
deriving DecidableEq

/-- A round of the loop, and what it prints. -/
def patternStep (nToks idx : Int) (s : PatternLoop) (t : Tok) : PatternLoop × Bytes :=
  if t.kind.isSpace then (s, t.str)
  else
    let matched := s.matched || decide (s.which = idx)
    let started := (s.started || decide (s.which = idx)) && decide (s.which ≠ idx + nToks)
    if started then
      if s.pat &&& 1 = 1 then (⟨s.which + 1, started, matched, true, s.pat >>> 1⟩, [])
      else (⟨s.which + 1, started, matched, s.deleted, s.pat >>> 1⟩, t.str)
    else (⟨s.which + 1, started, matched, s.deleted, s.pat⟩, t.str)

def patternLoop (nToks idx : Int) (s : PatternLoop) : List Tok → PatternLoop × Bytes
  | [] => (s, [])
  | t :: toks =>
    let (s', printed) := patternStep nToks idx s t
    let (s'', rest) := patternLoop nToks idx s' toks
    (s'', printed ++ rest)

/-- `patterns[idx & (n_patterns - 1)]`, an `unsigned char`. -/
def patternOf (nToks : Nat) (idx : Int) : Nat :=
  (1 ||| ((idx % 2 ^ (nToks - 1)).toNat <<< 1)) % 2 ^ 8

/-- `rm_tok_pattern`. The index is a C `int`. -/
def rmTokPattern (nToks : Nat) (idx : Int32) (toks : List Tok) : ClexOutput :=
  let (s, printed) := patternLoop nToks (idx.toInt >>> (nToks - 1))
    ⟨0, false, false, false, patternOf nToks idx.toInt⟩ toks
  ⟨if s.matched && s.deleted then 51 else 71, printed⟩

/-- `clex rm-tok-pattern-n`, with the index that follows it. It is `none` where an assertion
fails. -/
def clexRmTokPattern (nToks : Int) (idx : Int32) (arg : Argument) : Option ClexOutput :=
  if ¬ (1 < nToks ∧ nToks ≤ 8) then none
  else
    match startScanner arg with
    | none => some ⟨71, []⟩
    | some s => (yylex s).map fun s => rmTokPattern nToks.toNat idx s.tokList

/-- The tokens that are neither blanks nor newlines. -/
def countedToks (toks : List Tok) : List Tok := toks.filter fun t => !t.kind.isSpace

/-- What is printed of the tokens without some of those that are counted, which are numbered from
`n` on. -/
def printWithout (dropped : Nat → Bool) : Nat → List Tok → Bytes
  | _, [] => []
  | n, t :: toks =>
    if t.kind.isSpace then t.str ++ printWithout dropped n toks
    else (if dropped n then [] else t.str) ++ printWithout dropped (n + 1) toks

/-- The tokens that the index stands for: the one it starts with, and those after it whose bit is
set. -/
def dropsToken (nToks idx n : Nat) : Bool :=
  let start := idx / 2 ^ (nToks - 1)
  n = start || decide (start < n ∧ n < start + nToks) && idx.testBit (n - start - 1)

/-- The loop before the token with number `which`. -/
def loopAt (nToks start pat which : Nat) : PatternLoop :=
  ⟨which, decide (start < which ∧ which ≤ start + nToks), decide (start < which),
    decide (start < which), pat >>> min (which - start) nToks⟩

/-- What the bits of the pattern say of a token. -/
def inPattern (nToks start pat n : Nat) : Bool :=
  decide (start ≤ n ∧ n < start + nToks) && pat.testBit (n - start)

theorem and_one_iff (n : Nat) : n &&& 1 = 1 ↔ n.testBit 0 = true := by
  rw [Nat.and_one_is_mod, Nat.testBit_zero, decide_eq_true_eq]

theorem patternStep_counted {nToks start pat which : Nat} (hpos : 0 < nToks)
    (hodd : pat.testBit 0 = true) (ht : t.kind.isSpace = false) :
    patternStep nToks start (loopAt nToks start pat which) t =
      (loopAt nToks start pat (which + 1),
        if inPattern nToks start pat which then [] else t.str) := by
  have hmatched : (decide (start < which) || decide ((which : Int) = start)) =
      decide (start < which + 1) := by
    rw [Bool.eq_iff_iff, Bool.or_eq_true, decide_eq_true_eq, decide_eq_true_eq, decide_eq_true_eq]
    omega
  have hstarted : ((decide (start < which ∧ which ≤ start + nToks) ||
      decide ((which : Int) = start)) && decide ((which : Int) ≠ start + nToks)) =
        decide (start < which + 1 ∧ which + 1 ≤ start + nToks) := by
    rw [Bool.eq_iff_iff, Bool.and_eq_true, Bool.or_eq_true, decide_eq_true_eq, decide_eq_true_eq,
      decide_eq_true_eq, decide_eq_true_eq]
    omega
  have hstep : patternStep nToks start (loopAt nToks start pat which) t =
      if decide (start < which + 1 ∧ which + 1 ≤ start + nToks) then
        if pat >>> min (which - start) nToks &&& 1 = 1 then
          (⟨which + 1, decide (start < which + 1 ∧ which + 1 ≤ start + nToks),
            decide (start < which + 1), true, pat >>> min (which - start) nToks >>> 1⟩, [])
        else (⟨which + 1, decide (start < which + 1 ∧ which + 1 ≤ start + nToks),
          decide (start < which + 1), decide (start < which),
            pat >>> min (which - start) nToks >>> 1⟩, t.str)
      else (⟨which + 1, decide (start < which + 1 ∧ which + 1 ≤ start + nToks),
        decide (start < which + 1), decide (start < which),
          pat >>> min (which - start) nToks⟩, t.str) := by
    rw [patternStep, if_neg (ht ▸ Bool.false_ne_true), loopAt]
    dsimp only
    rw [hmatched, hstarted]
  rw [hstep]
  simp only [and_one_iff, Nat.testBit_shiftRight, Nat.add_zero]
  split
  · rename_i hwindow
    have hwindow := of_decide_eq_true hwindow
    have hmin : min (which - start) nToks = which - start := by omega
    have hmin' : min (which + 1 - start) nToks = which - start + 1 := by omega
    have hin : inPattern nToks start pat which = pat.testBit (which - start) := by
      rw [inPattern, decide_eq_true (by omega), Bool.true_and]
    rw [hin, hmin, ← Nat.shiftRight_add, ← hmin']
    split
    · rename_i hbit
      rw [loopAt]
      congr 2
      exact (decide_eq_true (by omega)).symm
    · rename_i hbit
      have hne : which ≠ start := by
        intro heq
        rw [heq, Nat.sub_self] at hbit
        exact hbit hodd
      rw [loopAt]
      congr 2
      exact decide_eq_decide.2 (by omega)
  · rename_i hout
    have hout := of_decide_eq_false (Bool.not_eq_true _ ▸ hout)
    have hmin : min (which - start) nToks = min (which + 1 - start) nToks := by omega
    have hin : inPattern nToks start pat which = false := by
      rw [inPattern, decide_eq_false (by omega), Bool.false_and]
    rw [hin, hmin, loopAt]
    congr 2
    exact decide_eq_decide.2 (by omega)

/-- The loop counts what is neither a blank nor a newline, and prints all but the pattern. -/
theorem patternLoop_at {nToks start pat : Nat} (hpos : 0 < nToks) (hodd : pat.testBit 0 = true)
    (which : Nat) (toks : List Tok) :
    patternLoop nToks start (loopAt nToks start pat which) toks =
      (loopAt nToks start pat (which + (countedToks toks).length),
        printWithout (inPattern nToks start pat) which toks) := by
  induction toks generalizing which with
  | nil => rfl
  | cons t toks ih =>
    cases ht : t.kind.isSpace with
    | true =>
      have hcounted : countedToks (t :: toks) = countedToks toks :=
        List.filter_cons_of_neg (by rw [ht]; decide)
      rw [patternLoop, patternStep, if_pos ht, printWithout, if_pos ht, hcounted]
      dsimp only
      rw [ih]
    | false =>
      have hcounted : countedToks (t :: toks) = t :: countedToks toks :=
        List.filter_cons_of_pos (by rw [ht]; decide)
      have hprint : printWithout (inPattern nToks start pat) which (t :: toks) =
          (if inPattern nToks start pat which then [] else t.str) ++
            printWithout (inPattern nToks start pat) (which + 1) toks :=
        if_neg (by rw [ht]; decide)
      rw [patternLoop, patternStep_counted hpos hodd ht, hprint, hcounted, List.length_cons]
      dsimp only
      rw [ih, Nat.add_right_comm, Nat.add_assoc]

/-- The first bit is always set, the others are the low bits of the index. -/
theorem testBit_patternOf {nToks idx k : Nat} (hle : nToks ≤ 8) (hk : k < nToks) :
    (patternOf nToks idx).testBit k = (decide (k = 0) || idx.testBit (k - 1)) := by
  have hmod : ((idx : Int) % 2 ^ (nToks - 1)).toNat = idx % 2 ^ (nToks - 1) := by
    rw [← Int.toNat_natCast (idx % 2 ^ (nToks - 1))]
    push_cast
    rfl
  rw [patternOf, hmod, Nat.testBit_mod_two_pow, decide_eq_true (by omega), Bool.true_and,
    Nat.testBit_or, Nat.testBit_shiftLeft]
  cases k with
  | zero => rfl
  | succ k =>
    have hone : Nat.testBit 1 (k + 1) = false := by
      rw [Nat.testBit_succ]
      exact Nat.zero_testBit k
    rw [hone, Bool.false_or, decide_eq_true (by omega), Bool.true_and, Nat.add_sub_cancel,
      Nat.testBit_mod_two_pow, decide_eq_true (by omega), Bool.true_and,
      decide_eq_false (Nat.succ_ne_zero k), Bool.false_or]

theorem inPattern_eq {nToks idx n : Nat} (hpos : 0 < nToks) (hle : nToks ≤ 8) :
    inPattern nToks (idx / 2 ^ (nToks - 1)) (patternOf nToks idx) n = dropsToken nToks idx n := by
  rw [inPattern, dropsToken]
  generalize idx / 2 ^ (nToks - 1) = start
  by_cases hwindow : start ≤ n ∧ n < start + nToks
  · rw [decide_eq_true hwindow, Bool.true_and, testBit_patternOf hle (by omega)]
    by_cases heq : n = start
    · rw [heq, Nat.sub_self, decide_eq_true rfl, decide_eq_true rfl, Bool.true_or, Bool.true_or]
    · rw [decide_eq_false (show ¬ n - start = 0 by omega), decide_eq_false heq,
        decide_eq_true (show start < n ∧ n < start + nToks by omega), Bool.true_and]
  · rw [decide_eq_false hwindow, Bool.false_and, decide_eq_false (show ¬ n = start by omega),
      decide_eq_false (show ¬ (start < n ∧ n < start + nToks) by omega), Bool.false_and]
    rfl

theorem rmTokPattern_eq {nToks : Nat} {idx : Int32} {n : Nat} (hpos : 0 < nToks) (hle : nToks ≤ 8)
    (hidx : idx.toInt = n) (toks : List Tok) : rmTokPattern nToks idx toks =
      ⟨if n < (countedToks toks).length * 2 ^ (nToks - 1) then 51 else 71,
        printWithout (dropsToken nToks n) 0 toks⟩ := by
  have hodd : (patternOf nToks n).testBit 0 = true := by
    rw [testBit_patternOf hle hpos]
    rfl
  have hstart : (n : Int) >>> (nToks - 1) = ((n / 2 ^ (nToks - 1) : Nat) : Int) := by
    rw [← Nat.shiftRight_eq_div_pow]
    rfl
  have hfirst : ∀ start pat : Nat, (⟨0, false, false, false, pat⟩ : PatternLoop) =
      loopAt nToks start pat 0 := by
    intro start pat
    rw [loopAt, decide_eq_false (by omega), decide_eq_false (by omega), Nat.zero_sub,
      Nat.zero_min]
    rfl
  have hdrops : inPattern nToks (n / 2 ^ (nToks - 1)) (patternOf nToks n) = dropsToken nToks n :=
    funext fun k => inPattern_eq hpos hle
  have hlt : n / 2 ^ (nToks - 1) < (countedToks toks).length ↔
      n < (countedToks toks).length * 2 ^ (nToks - 1) :=
    Nat.div_lt_iff_lt_mul (Nat.two_pow_pos _)
  rw [rmTokPattern, hidx, hstart, hfirst (n / 2 ^ (nToks - 1)), patternLoop_at hpos hodd, hdrops]
  dsimp only [loopAt]
  rw [Bool.and_self, Nat.zero_add]
  congr 1
  simp only [decide_eq_true_eq, hlt]

theorem patternLoop_negative (nToks : Int) {start : Int} (hneg : start < 0) {s : PatternLoop}
    (hwhich : 0 ≤ s.which) (hs : s.matched = false) (toks : List Tok) :
    (patternLoop nToks start s toks).1.matched = false := by
  induction toks generalizing s with
  | nil => exact hs
  | cons t toks ih =>
    have hne : decide (s.which = start) = false := decide_eq_false (by omega)
    have hstep : 0 ≤ (patternStep nToks start s t).1.which ∧
        (patternStep nToks start s t).1.matched = false := by
      rw [patternStep, hs, hne]
      split
      · exact ⟨hwhich, hs⟩
      · dsimp only
        split
        · split
          · exact ⟨by dsimp only; omega, rfl⟩
          · exact ⟨by dsimp only; omega, rfl⟩
        · exact ⟨by dsimp only; omega, rfl⟩
    rw [patternLoop]
    exact ih hstep.1 hstep.2

theorem rmTokPattern_negative {idx : Int32} (h : idx.toInt < 0) (nToks : Nat) (toks : List Tok) :
    (rmTokPattern nToks idx toks).code = 71 := by
  have hneg : idx.toInt >>> (nToks - 1) < 0 := by
    rw [Int.shiftRight_eq_div_pow]
    exact Int.ediv_neg_of_neg_of_pos h (by exact_mod_cast Nat.two_pow_pos _)
  have hmatched := patternLoop_negative nToks hneg
    (s := ⟨0, false, false, false, patternOf nToks idx.toInt⟩) (Int.le_refl 0) rfl toks
  rw [rmTokPattern]
  dsimp only
  rw [hmatched]
  rfl

/-- The index that drops the tokens of a set, from its first one on. -/
def indexOf (nToks start : Nat) (s : Finset Nat) : Nat :=
  2 ^ (nToks - 1) * start + Nat.ofBits fun i : Fin (nToks - 1) => decide (start + i + 1 ∈ s)

theorem dropsToken_indexOf {nToks start n : Nat} {s : Finset Nat} (hpos : 0 < nToks)
    (hfirst : start ∈ s) (hle : ∀ m ∈ s, start ≤ m) (hspan : ∀ m ∈ s, m < start + nToks) :
    dropsToken nToks (indexOf nToks start s) n = true ↔ n ∈ s := by
  have hbits := Nat.ofBits_lt_two_pow fun i : Fin (nToks - 1) => decide (start + i + 1 ∈ s)
  have hstart : indexOf nToks start s / 2 ^ (nToks - 1) = start := by
    rw [indexOf, Nat.mul_add_div (Nat.two_pow_pos _), Nat.div_eq_of_lt hbits, Nat.add_zero]
  rw [dropsToken, hstart, Bool.or_eq_true, decide_eq_true_eq, Bool.and_eq_true, decide_eq_true_eq]
  constructor
  · intro h
    rcases h with heq | ⟨⟨hlt, hwindow⟩, hbit⟩
    · exact heq ▸ hfirst
    · rw [indexOf, Nat.testBit_two_pow_mul_add _ hbits, if_pos (by omega),
        Nat.testBit_ofBits_lt _ _ (by omega), decide_eq_true_eq] at hbit
      have heq : start + (n - start - 1) + 1 = n := by omega
      exact heq ▸ hbit
  · intro hn
    have hge := hle n hn
    have hlt := hspan n hn
    by_cases heq : n = start
    · exact .inl heq
    · refine .inr ⟨⟨by omega, hlt⟩, ?_⟩
      rw [indexOf, Nat.testBit_two_pow_mul_add _ hbits, if_pos (by omega),
        Nat.testBit_ofBits_lt _ _ (by omega), decide_eq_true_eq]
      have heq : start + (n - start - 1) + 1 = n := by omega
      exact heq.symm ▸ hn

theorem toInt_natCast {idx : Int32} (h : 0 ≤ idx.toInt) : idx.toInt = (idx.toInt.toNat : Int) :=
  (Int.toNat_of_nonneg h).symm

/-- A small set of tokens near each other has an index just if it starts early enough for an
`int`. -/
theorem exists_index_iff {nToks count : Nat} (htwo : 2 ≤ nToks) (hle : nToks ≤ 8) {s : Finset Nat}
    (hne : s.Nonempty) (hin : ∀ n ∈ s, n < count) (hspan : ∀ m ∈ s, ∀ n ∈ s, n < m + nToks) :
    (∃ idx : Int32, 0 ≤ idx.toInt ∧ idx.toInt < (count * 2 ^ (nToks - 1) : Nat) ∧
      ∀ n, dropsToken nToks idx.toInt.toNat n = true ↔ n ∈ s) ↔ ∃ n ∈ s, n < 2 ^ (32 - nToks) := by
  have hpow : 2 ^ (32 - nToks) * 2 ^ (nToks - 1) = 2 ^ 31 := by
    rw [← Nat.pow_add]
    congr 1
    omega
  constructor
  · rintro ⟨idx, hpos, -, hdrops⟩
    refine ⟨idx.toInt.toNat / 2 ^ (nToks - 1), (hdrops _).1 ?_, ?_⟩
    · rw [dropsToken, decide_eq_true rfl, Bool.true_or]
    · rw [Nat.div_lt_iff_lt_mul (Nat.two_pow_pos _), hpow]
      have hlt := Int32.toInt_lt idx
      omega
  · rintro ⟨k, hk, hearly⟩
    have hmin := s.min'_mem hne
    have hbits := Nat.ofBits_lt_two_pow fun i : Fin (nToks - 1) => decide (s.min' hne + i + 1 ∈ s)
    have hbound {m : Nat} (hlt : s.min' hne < m) :
        indexOf nToks (s.min' hne) s < m * 2 ^ (nToks - 1) := by
      have hmul := Nat.mul_le_mul_right (2 ^ (nToks - 1)) (Nat.succ_le_of_lt hlt)
      rw [Nat.succ_mul, Nat.mul_comm] at hmul
      rw [indexOf]
      omega
    have hfits := hbound ((s.min'_le k hk).trans_lt hearly)
    rw [hpow] at hfits
    have hidx : (Int32.ofNat (indexOf nToks (s.min' hne) s)).toInt = indexOf nToks (s.min' hne) s :=
      Int32.toInt_ofNat_of_lt hfits
    refine ⟨Int32.ofNat (indexOf nToks (s.min' hne) s), ?_, ?_, fun n => ?_⟩
    · rw [hidx]
      exact Int.natCast_nonneg _
    · rw [hidx]
      exact Int.ofNat_lt.2 (hbound (hin _ hmin))
    · rw [hidx, Int.toNat_natCast]
      exact dropsToken_indexOf (by omega) hmin (fun m hm => s.min'_le m hm) fun m hm =>
        hspan _ hmin m hm

/-- The exit code and the output for every index, and which small sets of tokens near each other
have an index. -/
theorem rmTokPattern_enumerates {nToks : Nat} (htwo : 2 ≤ nToks) (hle : nToks ≤ 8)
    (toks : List Tok) :
    (∀ idx : Int32, (rmTokPattern nToks idx toks).code =
      if 0 ≤ idx.toInt ∧ idx.toInt < ((countedToks toks).length * 2 ^ (nToks - 1) : Nat) then 51
      else 71) ∧
    (∀ idx : Int32, 0 ≤ idx.toInt →
      (rmTokPattern nToks idx toks).stdout =
        printWithout (dropsToken nToks idx.toInt.toNat) 0 toks) ∧
    ∀ s : Finset Nat, s.Nonempty → (∀ n ∈ s, n < (countedToks toks).length) →
      (∀ m ∈ s, ∀ n ∈ s, n < m + nToks) →
        ((∃ idx : Int32, 0 ≤ idx.toInt ∧
            idx.toInt < ((countedToks toks).length * 2 ^ (nToks - 1) : Nat) ∧
            ∀ n, dropsToken nToks idx.toInt.toNat n = true ↔ n ∈ s) ↔
          ∃ n ∈ s, n < 2 ^ (32 - nToks)) := by
  refine ⟨fun idx => ?_, fun idx hidx => ?_, fun s hne hin hspan => ?_⟩
  · by_cases hneg : idx.toInt < 0
    · rw [rmTokPattern_negative hneg, if_neg (by omega)]
    · have hcast := toInt_natCast (Int.not_lt.1 hneg)
      rw [rmTokPattern_eq (by omega) hle hcast]
      by_cases hlt : idx.toInt < ((countedToks toks).length * 2 ^ (nToks - 1) : Nat)
      · rw [if_pos (by omega), if_pos ⟨Int.not_lt.1 hneg, hlt⟩]
      · rw [if_neg (by omega), if_neg fun h => hlt h.2]
  · rw [rmTokPattern_eq (by omega) hle (toInt_natCast hidx)]
  · exact exists_index_iff htwo hle hne hin hspan

/-- The mode runs it on the tokens of its files for the numbers that pass the assertion. -/
theorem clexRmTokPattern_eq {nToks : Int} (hs : startScanner arg = some s)
    (htoks : yylex s = some s') : clexRmTokPattern nToks idx arg =
      if 1 < nToks ∧ nToks ≤ 8 then some (rmTokPattern nToks.toNat idx s'.tokList) else none := by
  rw [clexRmTokPattern, hs, ite_not]
  congr 1
  show (yylex s).map _ = _
  rw [htoks, Option.map_some]

/-- The middle one of three tokens with blanks between them. -/
theorem rmTokPattern_enumerates_middle :
    (rmTokPattern 2 2 [⟨[97], .ident, .single, -1, 1, 0⟩, ⟨[32], .ws, .single, -1, 1, 1⟩,
      ⟨[98], .ident, .single, -1, 1, 2⟩, ⟨[10], .newline, .single, -1, 1, 3⟩,
        ⟨[99], .ident, .single, -1, 1, 4⟩]).stdout =
      printWithout (dropsToken 2 (2 : Int32).toInt.toNat) 0 [⟨[97], .ident, .single, -1, 1, 0⟩,
        ⟨[32], .ws, .single, -1, 1, 1⟩, ⟨[98], .ident, .single, -1, 1, 2⟩,
        ⟨[10], .newline, .single, -1, 1, 3⟩, ⟨[99], .ident, .single, -1, 1, 4⟩] ∧
    ∃ idx : Int32, 0 ≤ idx.toInt ∧ idx.toInt < (3 * 2 ^ (2 - 1) : Nat) ∧
      ∀ n, dropsToken 2 idx.toInt.toNat n = true ↔ n ∈ ({1, 2} : Finset Nat) := by
  refine ⟨(rmTokPattern_enumerates (by decide) (by decide) _).2.1 2 (by decide), ?_⟩
  exact ((rmTokPattern_enumerates (by decide) (by decide) [⟨[97], .ident, .single, -1, 1, 0⟩,
    ⟨[98], .ident, .single, -1, 1, 2⟩, ⟨[99], .ident, .single, -1, 1, 4⟩]).2.2 {1, 2} (by decide)
      (by decide) (by decide)).2 ⟨1, by decide, by decide⟩

/-- One token more than there are starts for an `int` with patterns of eight tokens. -/
def manyToks : List Tok := List.replicate (2 ^ 24 + 1) ⟨[59], .other, .single, -1, 1, 0⟩

theorem length_manyToks : (countedToks manyToks).length = 2 ^ 24 + 1 := by
  have hall : countedToks manyToks = manyToks := by
    refine List.filter_eq_self.2 fun t ht => ?_
    rw [List.eq_of_mem_replicate ht]
    rfl
  rw [hall, manyToks, List.length_replicate]

/-- The program stops at the first index that is no `int`, and the last token is deleted alone by
none. -/
theorem rmTokPattern_misses : (2 ^ 31 : Nat) < (countedToks manyToks).length * 2 ^ (8 - 1) ∧
    (rmTokPattern 8 (Int32.ofNat (2 ^ 31)) manyToks).code = 71 ∧
    (∀ n ∈ ({2 ^ 24} : Finset Nat), n < (countedToks manyToks).length) ∧
    ¬ ∃ idx : Int32, 0 ≤ idx.toInt ∧
      idx.toInt < ((countedToks manyToks).length * 2 ^ (8 - 1) : Nat) ∧
      ∀ n, dropsToken 8 idx.toInt.toNat n = true ↔ n ∈ ({2 ^ 24} : Finset Nat) := by
  have hin : ∀ n ∈ ({2 ^ 24} : Finset Nat), n < (countedToks manyToks).length := by
    intro n hn
    rw [Finset.mem_singleton.1 hn, length_manyToks]
    exact Nat.lt_succ_self _
  refine ⟨?_, rmTokPattern_negative (by decide) 8 manyToks, hin, ?_⟩
  · rw [length_manyToks]
    decide
  · rw [exists_index_iff (by decide) (by decide) (Finset.singleton_nonempty _) hin]
    · rintro ⟨n, hn, hlt⟩
      rw [Finset.mem_singleton.1 hn] at hlt
      exact absurd hlt (by decide)
    · intro m hm n hn
      rw [Finset.mem_singleton.1 hm, Finset.mem_singleton.1 hn]
      decide

end Cvise
