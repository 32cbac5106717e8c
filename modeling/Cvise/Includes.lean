import Cvise.Backtracking
import Cvise.HintRoundTrip
import Cvise.IfLines
import Cvise.LineSplitting
import Cvise.SerialRuns

namespace Cvise
set_option autoImplicit true

open Regexp

/-- The elements of a list but for some of those that a predicate holds of, which are numbered from
`i` on. -/
def removeNumbered (p : α → Bool) (drop : Nat → Bool) : Nat → List α → List α
  | _, [] => []
  | i, a :: l =>
    if p a then
      if drop i then removeNumbered p drop (i + 1) l else a :: removeNumbered p drop (i + 1) l
    else a :: removeNumbered p drop i l

/-- How many numbers below `n` are not dropped. -/
def staying (drop : Nat → Bool) (n : Nat) : Nat := (List.range n).countP (! drop ·)

section removal

variable {p : α → Bool} {drop drop' : Nat → Bool} {l : List α}

theorem staying_zero (drop : Nat → Bool) : staying drop 0 = 0 := rfl

theorem staying_succ (drop : Nat → Bool) (n : Nat) :
    staying drop (n + 1) = staying drop n + if drop n then 0 else 1 := by
  rw [staying, staying, List.range_succ, List.countP_append, List.countP_singleton]
  cases drop n <;> rfl

theorem staying_mono (drop : Nat → Bool) (h : m ≤ n) : staying drop m ≤ staying drop n := by
  induction n, h using Nat.le_induction with
  | base => exact Nat.le_refl _
  | succ n _ ih => exact ih.trans ((staying_succ drop n).symm ▸ Nat.le_add_right _ _)

theorem staying_congr (h : ∀ i, i < n → drop i = drop' i) : staying drop n = staying drop' n := by
  induction n with
  | zero => rfl
  | succ n ih =>
    rw [staying_succ, staying_succ, ih fun i hi => h i (Nat.lt_succ_of_lt hi),
      h n (Nat.lt_succ_self n)]

theorem staying_add (h : ∀ i, k ≤ i → drop i = false) (m : Nat) :
    staying drop (k + m) = staying drop k + m := by
  induction m with
  | zero => rfl
  | succ m ih => rw [← Nat.add_assoc, staying_succ, ih, h _ (Nat.le_add_right k m)]; rfl

theorem removeNumbered_congr (h : ∀ j, i ≤ j → j < i + l.countP p → drop j = drop' j) :
    removeNumbered p drop i l = removeNumbered p drop' i l := by
  induction l generalizing i with
  | nil => rfl
  | cons a l ih =>
    rw [removeNumbered, removeNumbered]
    by_cases hp : p a = true
    · rw [List.countP_cons_of_pos hp] at h
      rw [if_pos hp, if_pos hp, h i (Nat.le_refl i) (by omega),
        ih fun j hj hlt => h j (by omega) (by omega)]
    · rw [List.countP_cons_of_neg hp] at h
      rw [if_neg hp, if_neg hp, ih h]

/-- Each element that stays gets the number of those before it that stay. -/
theorem removeNumbered_removeNumbered (p : α → Bool) (drop drop' : Nat → Bool) (i : Nat)
    (l : List α) :
    removeNumbered p drop' (staying drop i) (removeNumbered p drop i l) =
      removeNumbered p (fun j => drop j || drop' (staying drop j)) i l := by
  induction l generalizing i with
  | nil => rfl
  | cons a l ih =>
    have hnext := ih (i + 1)
    rw [staying_succ] at hnext
    rw [removeNumbered, removeNumbered]
    by_cases hp : p a = true
    · cases hd : drop i with
      | true =>
        rw [hd] at hnext
        simpa only [if_pos hp, hd, Bool.true_or, if_true, Nat.add_zero] using hnext
      | false =>
        rw [hd] at hnext
        simp only [if_pos hp, Bool.false_or, Bool.false_eq_true, if_false, removeNumbered]
        rw [← hnext]
        rfl
    · rw [if_neg hp, if_neg hp, removeNumbered, if_neg hp, ih]

theorem staying_countP_removeNumbered (drop : Nat → Bool) (i : Nat) (l : List α) :
    staying drop i + (removeNumbered p drop i l).countP p = staying drop (i + l.countP p) := by
  induction l generalizing i with
  | nil => rfl
  | cons a l ih =>
    rw [removeNumbered]
    by_cases hp : p a = true
    · have hnext := ih (i + 1)
      rw [staying_succ] at hnext
      rw [if_pos hp, List.countP_cons_of_pos hp]
      split
      · rename_i hd
        rw [if_pos hd] at hnext
        rw [show i + (l.countP p + 1) = i + 1 + l.countP p by omega, ← hnext]
        rfl
      · rename_i hd
        rw [if_neg hd] at hnext
        rw [List.countP_cons_of_pos hp, show i + (l.countP p + 1) = i + 1 + l.countP p by omega,
          ← hnext]
        omega
    · rw [if_neg hp, List.countP_cons_of_neg hp, List.countP_cons_of_neg hp, ih]

theorem removeNumbered_sublist (i : Nat) (l : List α) :
    (removeNumbered p drop i l).Sublist l := by
  induction l generalizing i with
  | nil => exact .slnil
  | cons a l ih =>
    rw [removeNumbered]
    split
    · split
      · exact (ih _).cons a
      · exact (ih _).cons_cons a
    · exact (ih _).cons_cons a

end removal

namespace IncludesPass

/-- `\s*#\s*include`. -/
def includeRegexp : Regexp Char :=
  .andThen (many isSpace) (.andThen (lit '#') (.andThen (many isSpace) (word "include".toList)))

/-- `re.match`. -/
def isInclude (line : Str) : Bool := (matchAt line includeRegexp 0).isSome

/-- The variables of the loop of `transform`, and what it has written. -/
structure LoopState where
  includes : Nat := 0
  matched : Bool := false
  written : List Str := []

/-- The body of the loop. -/
def copyLine (state : Nat) (s : LoopState) (line : Str) : LoopState :=
  if isInclude line then
    if s.includes + 1 = state then { s with includes := s.includes + 1, matched := true }
    else { s with includes := s.includes + 1, written := s.written ++ [line] }
  else { s with written := s.written ++ [line] }

def transform (state : Nat) (text : Str) : PassResult × Str :=
  let s := (IfPass.fileLines text).foldl (copyLine state) {}
  if s.matched then (.ok, s.written.flatten) else (.stop, text)

/-- The pass on the text of a file. -/
def serial : SerialPass Nat Str where
  transform := transform
  advance state _ := some (state + 1)
  advanceOnSuccess state _ := some state

theorem copyLine_foldl (state : Nat) (s : LoopState) (lines : List Str) :
    lines.foldl (copyLine state) s = {
      includes := s.includes + lines.countP isInclude
      matched := s.matched || (s.includes < state && state ≤ s.includes + lines.countP isInclude)
      written := s.written ++ removeNumbered isInclude (· + 1 = state) s.includes lines } := by
  induction lines generalizing s with
  | nil =>
    obtain ⟨includes, matched, written⟩ := s
    have hnone : (includes < state && state ≤ includes) = false := by simp
    simp [removeNumbered, hnone]
  | cons line lines ih =>
    rw [List.foldl_cons, ih, copyLine, removeNumbered]
    by_cases hline : isInclude line = true
    · rw [if_pos hline, if_pos hline, List.countP_cons_of_pos hline]
      by_cases hstate : s.includes + 1 = state
      · subst hstate
        simp [Nat.add_assoc, Nat.add_comm 1]
      · have hlt : s.includes + 1 < state ↔ s.includes < state := by omega
        simp [hstate, hlt, Nat.add_assoc, Nat.add_comm 1]
    · rw [if_neg hline, if_neg hline, List.countP_cons_of_neg hline]
      simp

theorem textLines_eq (text : Str) : textLines text = splitLines '\n' text := by
  induction text with
  | nil => rfl
  | cons c text ih =>
    rw [textLines, splitLines, ih]
    cases splitLines '\n' text with
    | nil => rfl
    | cons line lines => rfl

theorem universalNewlines_cr (text : Str) : ∀ c ∈ universalNewlines text, c ≠ '\r' := by
  induction text using universalNewlines.induct with
  | case1 rest ih => exact List.forall_mem_cons.2 ⟨by decide, ih⟩
  | case2 rest h ih =>
    rw [universalNewlines]
    · exact List.forall_mem_cons.2 ⟨by decide, ih⟩
    · exact h
  | case3 c rest h h' ih =>
    rw [universalNewlines]
    · exact List.forall_mem_cons.2 ⟨h', ih⟩
    · exact h
    · exact h'
  | case4 => exact List.forall_mem_nil _

theorem fileLines_flatten {text : Str} {lines : List Str}
    (hsub : lines.Sublist (IfPass.fileLines text)) : IfPass.fileLines lines.flatten = lines := by
  have hcr : ∀ c ∈ lines.flatten, c ≠ '\r' := by
    intro c hc
    refine universalNewlines_cr text c ?_
    rw [← flatten_splitLines '\n' (universalNewlines text), ← textLines_eq]
    obtain ⟨line, hline, hc⟩ := List.mem_flatten.1 hc
    exact List.mem_flatten.2 ⟨line, hsub.subset hline, hc⟩
  rw [IfPass.fileLines, textLines_eq] at hsub
  rw [IfPass.fileLines, universalNewlines_eq hcr, textLines_eq]
  exact ((areLines_splitLines _ _).sublist hsub).splitLines_flatten

/-- A variant lacks one include, if there is one left for the state. -/
theorem transform_spec (state : Nat) (text : Str) :
    transform state text =
      if 0 < state ∧ state ≤ (IfPass.fileLines text).countP isInclude then
        (.ok, (removeNumbered isInclude (· + 1 = state) 0 (IfPass.fileLines text)).flatten)
      else (.stop, text) := by
  rw [transform, copyLine_foldl]
  simp

/-- The tests before the `k`-th one. -/
def upTo (outcomes : Nat → Bool) (k i : Nat) : Bool := i < k && outcomes i

theorem upTo_ge (outcomes : Nat → Bool) (h : k ≤ i) : upTo outcomes k i = false := by
  simp [upTo, Nat.not_lt.2 h]

theorem upTo_succ (outcomes : Nat → Bool) (k i : Nat) :
    upTo outcomes (k + 1) i = (upTo outcomes k i || (decide (i = k) && outcomes k)) := by
  rcases Nat.lt_trichotomy i k with h | rfl | h
  · simp [upTo, h, h.ne, Nat.lt_succ_of_lt h]
  · simp [upTo]
  · simp [upTo, h.ne', h.not_gt, show ¬ i < k + 1 by omega]

/-- The state of a run after `k` tests: how many of the includes stay. -/
structure After (outcomes : Nat → Bool) (lines : List Str) (k : Nat) (c : Nat × Str) : Prop where
  state : c.1 = staying (upTo outcomes k) k + 1
  lines : IfPass.fileLines c.2 = removeNumbered isInclude (upTo outcomes k) 0 lines

variable {outcomes : Nat → Bool} {lines : List Str} {c : Nat × Str}

theorem After.countP (h : After outcomes lines k c) (hk : k ≤ lines.countP isInclude) :
    (IfPass.fileLines c.2).countP isInclude + k =
      staying (upTo outcomes k) k + lines.countP isInclude := by
  have hcount := staying_countP_removeNumbered (p := isInclude) (upTo outcomes k) 0 lines
  have hsplit : 0 + lines.countP isInclude = k + (lines.countP isInclude - k) := by omega
  rw [hsplit, staying_add fun i => upTo_ge outcomes, staying_zero] at hcount
  rw [h.lines]
  omega

/-- The lines but for the next include, and for those that a test let go. -/
def variant (outcomes : Nat → Bool) (lines : List Str) (k : Nat) : List Str :=
  removeNumbered isInclude (fun i => upTo outcomes k i || i = k) 0 lines

theorem staying_eq_iff (outcomes : Nat → Bool) (h : upTo outcomes k i = false) :
    staying (upTo outcomes k) i = staying (upTo outcomes k) k ↔ i = k := by
  rcases Nat.lt_or_ge i k with hlt | hge
  · have hmono := staying_mono (upTo outcomes k) (show i + 1 ≤ k from hlt)
    rw [staying_succ, h] at hmono
    simp only [Bool.false_eq_true, if_false] at hmono
    omega
  · have hadd := staying_add (fun j => upTo_ge (i := j) (k := k) outcomes) (i - k)
    rw [Nat.add_sub_cancel' hge] at hadd
    omega

theorem After.transform (h : After outcomes lines k c) (hk : k < lines.countP isInclude) :
    IncludesPass.transform c.1 c.2 = (.ok, (variant outcomes lines k).flatten) := by
  have hcount := h.countP hk.le
  rw [transform_spec, if_pos ⟨by rw [h.state]; omega, by rw [h.state]; omega⟩, h.lines]
  have hcomp := removeNumbered_removeNumbered isInclude (upTo outcomes k) (· + 1 = c.1) 0 lines
  rw [staying_zero] at hcomp
  rw [hcomp, variant]
  congr 2
  refine removeNumbered_congr fun i _ _ => ?_
  cases hi : upTo outcomes k i with
  | true => rfl
  | false =>
    have hiff := staying_eq_iff outcomes hi
    rw [Bool.false_or, Bool.false_or, h.state]
    simp only [Nat.add_right_cancel_iff, hiff]

theorem variant_fileLines (hlines : lines = IfPass.fileLines text) (k : Nat) :
    IfPass.fileLines (variant outcomes lines k).flatten = variant outcomes lines k := by
  subst hlines
  exact fileLines_flatten (removeNumbered_sublist 0 _)

theorem variant_ne (h : After outcomes lines k c) (hk : k < lines.countP isInclude) :
    variant outcomes lines k ≠ IfPass.fileLines c.2 := by
  intro heq
  have hcount := h.countP hk.le
  have hvariant := staying_countP_removeNumbered (p := isInclude)
    (fun i => upTo outcomes k i || i = k) 0 lines
  have hsplit : 0 + lines.countP isInclude = k + 1 + (lines.countP isInclude - (k + 1)) := by omega
  have hstay : ∀ i, k + 1 ≤ i → (upTo outcomes k i || decide (i = k)) = false := by
    intro i hi
    rw [upTo_ge outcomes (by omega), Bool.false_or, decide_eq_false_iff_not]
    omega
  have hstaying : staying (fun i => upTo outcomes k i || i = k) k =
      staying (upTo outcomes k) k := by
    refine staying_congr fun i hi => ?_
    simp [hi.ne]
  rw [hsplit, staying_add hstay, staying_succ, hstaying, ← variant, heq] at hvariant
  simp only [decide_true, Bool.or_true, if_true] at hvariant
  rw [staying_zero] at hvariant
  omega

theorem After.step (h : After outcomes lines k c) (hlines : lines = IfPass.fileLines text)
    (hk : k < lines.countP isInclude) :
    ∃ c', serial.step (outcomes k) c = some c' ∧ After outcomes lines (k + 1) c' := by
  have hstaying : staying (upTo outcomes (k + 1)) (k + 1) =
      staying (upTo outcomes k) k + if outcomes k then 0 else 1 := by
    rw [staying_succ, upTo_succ, upTo_ge outcomes (Nat.le_refl k)]
    simp only [decide_true, Bool.true_and, Bool.false_or]
    congr 1
    refine staying_congr fun i hi => ?_
    rw [upTo_succ]
    simp [hi.ne]
  have htransform : serial.transform c.1 c.2 = (.ok, (variant outcomes lines k).flatten) :=
    h.transform hk
  have hne : (variant outcomes lines k).flatten ≠ c.2 := by
    intro heq
    refine variant_ne h hk ?_
    rw [← heq, variant_fileLines hlines]
  rw [SerialPass.step, htransform]
  cases houtcome : outcomes k with
  | true =>
    refine ⟨(c.1, (variant outcomes lines k).flatten), if_pos ⟨rfl, hne⟩, ?_, ?_⟩
    · rw [hstaying, houtcome]
      exact h.state
    · rw [variant_fileLines hlines, variant]
      refine removeNumbered_congr fun i _ _ => ?_
      rw [upTo_succ, houtcome, Bool.and_true]
  | false =>
    refine ⟨(c.1 + 1, c.2), if_neg (fun hs => Bool.false_ne_true hs.1), ?_, ?_⟩
    · rw [hstaying, houtcome, h.state]
      rfl
    · rw [h.lines]
      refine removeNumbered_congr fun i _ _ => ?_
      rw [upTo_succ, houtcome, Bool.and_false, Bool.or_false]

end IncludesPass

end Cvise
