import Cvise.Modifications

namespace Cvise
set_option autoImplicit true

open Regexp

def isHexDigit (c : Char) : Bool := "0123456789abcdefABCDEF".toList.contains c

/-- What `\s` and the classes of single characters match. -/
def oneOfChars (s : String) : Regexp Char := .one (s.toList.contains ·)

def optional (r : Regexp Char) : Regexp Char := .orElse r .empty

namespace IntsPass

def pref : Nat := 0
def numpart : Nat := 1
def suf : Nat := 2
def del : Nat := 3

def borderOrSpace : Regexp Char := .orElse (oneOfChars "*,:;\x7b\x7d[]()") (.one isSpace)

def isSuffix (c : Char) : Bool := "ULul".toList.contains c

def zero : Regexp Char := oneOfChars "0"
def zeroX : Regexp Char := .andThen zero (oneOfChars "xX")

/-- A border, a sign and a zero that may start a number, in part or not. -/
def prefixPart : Regexp Char :=
  .andThen borderOrSpace (.andThen (optional (oneOfChars "+-")) (optional (.orElse zero zeroX)))

def suffixPart : Regexp Char := .andThen (many isSuffix) borderOrSpace

/-- `int(s, 16)`, of a number that starts with `0x`. -/
def hexValue (s : Str) : Nat :=
  (s.drop 2).foldl (fun n c => 16 * n + "0123456789abcdef".toList.idxOf c.toLower) 0

/-- Delete the first digit. -/
def configA : ModificationConfig where
  search := .andThen (.group pref prefixPart) (.andThen (.one isHexDigit)
    (.andThen (.group numpart (atLeastOne isHexDigit)) (.group suf suffixPart)))
  replaceFn prog m := m.group prog pref ++ m.group prog numpart ++ m.group prog suf

/-- Delete the prefix. -/
def configB : ModificationConfig where
  search := .andThen (.group del borderOrSpace)
    (.andThen (.group pref (.andThen (optional (oneOfChars "+-")) (.orElse zero zeroX)))
      (.andThen (.group numpart (atLeastOne isHexDigit)) (.group suf suffixPart)))
  replaceFn prog m := m.group prog del ++ m.group prog numpart ++ m.group prog suf

/-- Delete the suffix. -/
def configC : ModificationConfig where
  search := .andThen (.group pref prefixPart) (.andThen (.group numpart (atLeastOne isHexDigit))
    (.andThen (atLeastOne isSuffix) (.group del borderOrSpace)))
  replaceFn prog m := m.group prog pref ++ m.group prog numpart ++ m.group prog del

/-- Hexadecimal to decimal. -/
def configD : ModificationConfig where
  search := .andThen (.group pref borderOrSpace)
    (.andThen (.group numpart (.andThen zero (.andThen (oneOfChars "Xx") (atLeastOne isHexDigit))))
      (.group suf suffixPart))
  replaceFn prog m :=
    m.group prog pref ++ natStr (hexValue (m.group prog numpart)) ++ m.group prog suf

def getConfig (arg : Str) : Except PyErr ModificationConfig :=
  if arg = ['a'] then .ok configA
  else if arg = ['b'] then .ok configB
  else if arg = ['c'] then .ok configC
  else if arg = ['d'] then .ok configD
  else .error .unknownArgumentError

theorem plain_prefixPart : Plain prefixPart := by
  simp [Plain, prefixPart, borderOrSpace, optional, oneOfChars, zero, zeroX]

theorem plain_suffixPart : Plain suffixPart := by
  simp [Plain, suffixPart, borderOrSpace, oneOfChars, many]

theorem plain_sign :
    Plain (.andThen (optional (oneOfChars "+-")) (.orElse zero zeroX)) := by
  simp [Plain, optional, oneOfChars, zero, zeroX]

theorem plain_literal :
    Plain (.andThen zero (.andThen (oneOfChars "Xx") (atLeastOne isHexDigit))) := by
  simp [Plain, oneOfChars, zero, atLeastOne, many]

theorem plain_borderOrSpace : Plain borderOrSpace := ⟨trivial, trivial⟩

variable {prog : Str} {m : Match}

/-- A number with what is around it. -/
structure Literal where
  before : Char
  sign : Str
  zero : Str
  digits : Str
  suffix : Str
  after : Char

def Literal.text (l : Literal) : Str :=
  l.before :: (l.sign ++ l.zero ++ l.digits ++ l.suffix ++ [l.after])

def isBorder (c : Char) : Bool := "*,:;\x7b\x7d[]()".toList.contains c || isSpace c

structure Literal.Proper (l : Literal) : Prop where
  before : isBorder l.before = true
  sign : l.sign = [] ∨ l.sign = ['+'] ∨ l.sign = ['-']
  zero : l.zero = [] ∨ l.zero = ['0'] ∨ l.zero = ['0', 'x'] ∨ l.zero = ['0', 'X']
  digits : ∀ d ∈ l.digits, isHexDigit d = true
  suffix : ∀ c ∈ l.suffix, isSuffix c = true
  after : isBorder l.after = true

/-- What becomes of a number, for each argument. -/
inductive Rewriting : Str → Literal → Literal → Prop
  /-- A zero in front of two digits counts as a prefix, and stays. -/
  | firstDigit (hdigits : l.digits = d :: rest) (hrest : rest ≠ [])
      (hzero : l.zero = [] → d = '0' → rest.length = 1) :
      Rewriting ['a'] l { l with digits := rest }
  | zeroPrefix (hzero : l.zero ≠ []) (hdigits : l.digits ≠ []) :
      Rewriting ['b'] l { l with sign := [], zero := [] }
  | suffix (hdigits : l.digits ≠ []) (hsuffix : l.suffix ≠ []) :
      Rewriting ['c'] l { l with suffix := [] }
  | decimal (hsign : l.sign = []) (hzero : l.zero = ['0', 'x'] ∨ l.zero = ['0', 'X'])
      (hdigits : l.digits ≠ []) :
      Rewriting ['d'] l { l with zero := [], digits := natStr (hexValue (l.zero ++ l.digits)) }

/-- What a variant of the pass does to a match. -/
def Rewrites (arg prog : Str) (m : Match) (replacement : Str) : Prop :=
  ∃ l l', l.Proper ∧ slice prog m.start m.stop = l.text ∧ Rewriting arg l l' ∧
    replacement = l'.text

theorem spans_oneOfChars {s : String} (h : Spans prog (oneOfChars s) i j) :
    ∃ c ∈ s.toList, prog[i]? = some c ∧ j = i + 1 := by
  obtain ⟨⟨c, hc, hmem⟩, rfl⟩ := spans_one.1 h
  exact ⟨c, List.contains_iff_mem.1 hmem, hc, rfl⟩

theorem spans_border (h : Spans prog borderOrSpace i j) :
    ∃ c, prog[i]? = some c ∧ j = i + 1 ∧ isBorder c = true := by
  rcases h with h | h
  · obtain ⟨c, hmem, hc, rfl⟩ := spans_oneOfChars h
    exact ⟨c, hc, rfl, Bool.or_eq_true_iff.2 (.inl (List.contains_iff_mem.2 hmem))⟩
  · obtain ⟨⟨c, hc, hspace⟩, rfl⟩ := spans_one.1 h
    exact ⟨c, hc, rfl, Bool.or_eq_true_iff.2 (.inr hspace)⟩

theorem spans_sign (h : Spans prog (optional (oneOfChars "+-")) i j) :
    slice prog i j = [] ∨ slice prog i j = ['+'] ∨ slice prog i j = ['-'] := by
  rcases h with h | h
  · obtain ⟨c, hmem, hc, rfl⟩ := spans_oneOfChars h
    obtain rfl | rfl : c = '+' ∨ c = '-' := by simpa using hmem
    · exact .inr (.inl (slice_one hc))
    · exact .inr (.inr (slice_one hc))
  · obtain rfl : j = i := h
    exact .inl (slice_self prog j)

theorem spans_zeroX (h : Spans prog zeroX i j) :
    slice prog i j = ['0', 'x'] ∨ slice prog i j = ['0', 'X'] := by
  obtain ⟨k, hzero, hx⟩ := h
  obtain ⟨z, hz, hz0, rfl⟩ := spans_oneOfChars hzero
  obtain ⟨c, hc, hcx, rfl⟩ := spans_oneOfChars hx
  obtain rfl : z = '0' := by simpa using hz
  rw [slice_cons hz0 (by omega), slice_one hcx]
  obtain rfl | rfl : c = 'x' ∨ c = 'X' := by simpa using hc
  · exact .inl rfl
  · exact .inr rfl

theorem spans_zero (h : Spans prog (.orElse zero zeroX) i j) : slice prog i j = ['0'] ∨
    slice prog i j = ['0', 'x'] ∨ slice prog i j = ['0', 'X'] := by
  rcases h with h | h
  · obtain ⟨z, hz, hz0, rfl⟩ := spans_oneOfChars h
    obtain rfl : z = '0' := by simpa using hz
    exact .inl (slice_one hz0)
  · exact .inr (spans_zeroX h)

theorem spans_optionalZero (h : Spans prog (optional (.orElse zero zeroX)) i j) :
    slice prog i j = [] ∨ slice prog i j = ['0'] ∨ slice prog i j = ['0', 'x'] ∨
      slice prog i j = ['0', 'X'] := by
  rcases h with h | h
  · exact .inr (spans_zero h)
  · obtain rfl : j = i := h
    exact .inl (slice_self prog j)

theorem spans_suffixPart (h : Spans prog suffixPart i j) : ∃ suffix after,
    slice prog i j = suffix ++ [after] ∧ (∀ c ∈ suffix, isSuffix c = true) ∧
      isBorder after = true := by
  obtain ⟨k, hmany, hborder⟩ := h
  obtain ⟨c, hc, rfl, hb⟩ := spans_border hborder
  refine ⟨slice prog i k, c, ?_, forall_of_spans_many hmany, hb⟩
  rw [← slice_one hc, slice_append _ (spans_le hmany) (Nat.le_succ k)]

/-- What comes behind the prefix in a match of the first expression. -/
def digitsPart : Regexp Char :=
  .andThen (.one isHexDigit)
    (.andThen (.group numpart (atLeastOne isHexDigit)) (.group suf suffixPart))

/-- A digit in front of three or more is not needed. -/
theorem spans_digitsPart (hnum : Spans prog (atLeastOne isHexDigit) i k) (hlt : i + 1 < k)
    (hsuf : Spans prog suffixPart k j) : Spans prog digitsPart i j := by
  obtain ⟨-, hall⟩ := spans_atLeastOne.1 hnum
  refine ⟨i + 1, spans_one.2 ⟨hall i (Nat.le_refl i) (Nat.lt_of_succ_lt hlt), rfl⟩, k, ?_, hsuf⟩
  exact spans_atLeastOne.2 ⟨hlt, fun q hq hqk => hall q (Nat.le_of_succ_le hq) hqk⟩

/-- A zero is passed over first. -/
theorem head?_optionalZero {f : Nat × GroupSpans → List (Nat × GroupSpans)}
    (h : ((runs prog (optional (.orElse zero zeroX)) i c).flatMap f).head? = some e) :
    ∃ k, Spans prog (optional (.orElse zero zeroX)) i k ∧ e ∈ f (k, c) ∧
      (k = i → prog[i]? = some '0' → f (i + 1, c) = []) := by
  have hplain : Plain (optional (.orElse zero zeroX)) := by
    simp [Plain, optional, oneOfChars, zero, zeroX]
  by_cases hfirst : prog[i]? = some '0' ∧ f (i + 1, c) ≠ []
  · obtain ⟨hzero, hne⟩ := hfirst
    have hruns : runs prog zero i c = [(i + 1, c)] := by simp [runs, zero, oneOfChars, hzero]
    obtain ⟨x, xs, hf⟩ := List.exists_cons_of_ne_nil hne
    simp only [optional, runs, hruns, List.cons_append, List.flatMap_cons, hf, List.head?_cons] at h
    obtain rfl := Option.some.inj h
    refine ⟨i + 1, .inl (.inl ?_), ?_, fun hk => absurd hk (Nat.succ_ne_self i)⟩
    · exact spans_one.2 ⟨⟨'0', hzero, by decide⟩, rfl⟩
    · rw [hf]
      exact List.mem_cons_self
  · obtain ⟨⟨k, c'⟩, hmem, hhead⟩ := exists_head?_flatMap h
    obtain rfl : c' = c := runs_groups hplain hmem
    refine ⟨k, runs_iff.1 ⟨_, hmem⟩, List.mem_of_head? hhead, fun _ hzero => ?_⟩
    by_contra hne
    exact hfirst ⟨hzero, hne⟩

theorem configA_rewrites (hm : m ∈ finditer prog configA.search) :
    Rewrites ['a'] prog m (configA.replaceFn prog m) := by
  obtain ⟨start, stop, groups⟩ := m
  have hhead := head?_runs_of_mem_finditer hm
  have hruns : runs prog configA.search start [] =
      (runs prog borderOrSpace start []).flatMap fun r =>
        (runs prog (optional (oneOfChars "+-")) r.1 r.2).flatMap fun r =>
          (runs prog (optional (.orElse zero zeroX)) r.1 r.2).flatMap fun r =>
            runs prog digitsPart r.1 ((pref, start, r.1) :: r.2) := by
    rw [configA, runs, runs, List.flatMap_map, prefixPart, runs_andThen, List.flatMap_assoc]
    simp only [runs_andThen prog (optional (oneOfChars "+-")) (optional (.orElse zero zeroX)),
      List.flatMap_assoc]
    rfl
  rw [hruns] at hhead
  obtain ⟨⟨k₁, c₁⟩, hborder, hhead⟩ := exists_head?_flatMap hhead
  obtain ⟨⟨k₂, c₂⟩, hsign, hhead⟩ := exists_head?_flatMap hhead
  obtain rfl : c₁ = [] := runs_groups plain_borderOrSpace hborder
  obtain rfl : c₂ = [] := runs_groups (r := optional (oneOfChars "+-")) ⟨trivial, trivial⟩ hsign
  obtain ⟨k₃, hzero, hrest, hpriority⟩ := head?_optionalZero hhead
  obtain ⟨k₄, hdigit, hrest⟩ := mem_runs_plain_andThen (plain_one isHexDigit) hrest
  obtain ⟨k₅, hnum, hrest⟩ := mem_runs_group_andThen (plain_atLeastOne _) hrest
  obtain ⟨rfl, hsuf⟩ := mem_runs_group plain_suffixPart hrest
  obtain ⟨before, hbefore, rfl, hb⟩ := spans_border (runs_iff.1 ⟨_, hborder⟩)
  obtain ⟨⟨d, hd, hhex⟩, rfl⟩ := spans_one.1 hdigit
  obtain ⟨suffix, after, hslice, hsuffix, ha⟩ := spans_suffixPart hsuf
  have hle₂ := spans_le (runs_iff.1 ⟨_, hsign⟩)
  have hle₃ := spans_le hzero
  have hlt₅ := lt_of_spans_atLeastOne hnum
  have hle₆ := spans_le hsuf
  have hpre : slice prog start k₃ =
      before :: (slice prog (start + 1) k₂ ++ slice prog k₂ k₃) := by
    rw [slice_append _ hle₂ hle₃, ← slice_cons hbefore (by omega)]
  let l : Literal :=
    ⟨before, slice prog (start + 1) k₂, slice prog k₂ k₃, d :: slice prog (k₃ + 1) k₅, suffix, after⟩
  refine ⟨l, { l with digits := slice prog (k₃ + 1) k₅ }, ?_, ?_, .firstDigit rfl ?_ ?_, ?_⟩
  · exact ⟨hb, spans_sign (runs_iff.1 ⟨_, hsign⟩), spans_optionalZero hzero,
      List.forall_mem_cons.2 ⟨hhex, forall_of_spans_atLeastOne hnum⟩, hsuffix, ha⟩
  · have hall : slice prog start stop =
        slice prog start k₃ ++ slice prog k₃ k₅ ++ slice prog k₅ stop := by
      rw [slice_append _ (by omega) (by omega), slice_append _ (by omega) hle₆]
    rw [hall, hpre, hslice, slice_cons hd (by omega)]
    simp [l, Literal.text]
  · exact slice_ne_nil hlt₅ (spans_stop hnum hlt₅)
  · intro hnil hd0
    have hk : k₃ = k₂ := by
      by_contra hne
      exact slice_ne_nil (by omega) (spans_stop hzero (by omega)) hnil
    subst hk
    rw [hd0] at hd
    have hlen := length_slice prog (i := k₃ + 1) (spans_stop hnum hlt₅)
    by_contra hone
    obtain ⟨c', hmem⟩ := (runs_iff (c := [(pref, start, k₃ + 1)])).2
      (spans_digitsPart hnum (by simp only [hlen] at hone; omega) hsuf)
    rw [hpriority rfl hd] at hmem
    cases hmem
  · rw [configA]
    simp only [group_first, group_next (show suf ≠ numpart by decide),
      group_next (show suf ≠ pref by decide), group_next (show numpart ≠ pref by decide)]
    rw [hpre, hslice]
    simp [l, Literal.text]

theorem configB_rewrites (hm : m ∈ finditer prog configB.search) :
    Rewrites ['b'] prog m (configB.replaceFn prog m) := by
  obtain ⟨start, stop, groups⟩ := m
  have hruns := mem_runs_of_mem_finditer hm
  obtain ⟨k₁, hdel, hruns⟩ := mem_runs_group_andThen plain_borderOrSpace hruns
  obtain ⟨k₃, hpref, hruns⟩ := mem_runs_group_andThen plain_sign hruns
  obtain ⟨k₄, hnum, hruns⟩ := mem_runs_group_andThen (plain_atLeastOne _) hruns
  obtain ⟨rfl, hsuf⟩ := mem_runs_group plain_suffixPart hruns
  obtain ⟨k₂, hsign, hzero⟩ := hpref
  obtain ⟨before, hbefore, rfl, hb⟩ := spans_border hdel
  obtain ⟨suffix, after, hslice, hsuffix, ha⟩ := spans_suffixPart hsuf
  have hle₂ := spans_le hsign
  have hle₃ := spans_le hzero
  have hlt₄ := lt_of_spans_atLeastOne hnum
  have hle₅ := spans_le hsuf
  let l : Literal :=
    ⟨before, slice prog (start + 1) k₂, slice prog k₂ k₃, slice prog k₃ k₄, suffix, after⟩
  refine ⟨l, { l with sign := [], zero := [] }, ?_, ?_, .zeroPrefix ?_ ?_, ?_⟩
  · exact ⟨hb, spans_sign hsign, .inr (spans_zero hzero), forall_of_spans_atLeastOne hnum, hsuffix,
      ha⟩
  · simp only [l, Literal.text]
    rw [List.append_assoc, ← hslice, slice_append _ hle₂ hle₃, slice_append _ (by omega) hlt₄.le,
      slice_append _ (by omega) hle₅, ← slice_cons hbefore (by omega)]
  · intro hnil
    simp only [l] at hnil
    rcases spans_zero hzero with h | h | h
    all_goals
      rw [hnil] at h
      cases h
  · exact slice_ne_nil hlt₄ (spans_stop hnum hlt₄)
  · rw [configB]
    simp only [group_first, group_next (show suf ≠ numpart by decide),
      group_next (show suf ≠ del by decide), group_next (show numpart ≠ del by decide),
      group_next (show pref ≠ del by decide)]
    rw [hslice, slice_one hbefore]
    simp [l, Literal.text]

theorem configC_rewrites (hm : m ∈ finditer prog configC.search) :
    Rewrites ['c'] prog m (configC.replaceFn prog m) := by
  obtain ⟨start, stop, groups⟩ := m
  have hruns := mem_runs_of_mem_finditer hm
  obtain ⟨k₃, hpref, hruns⟩ := mem_runs_group_andThen plain_prefixPart hruns
  obtain ⟨k₄, hnum, hruns⟩ := mem_runs_group_andThen (plain_atLeastOne _) hruns
  obtain ⟨k₅, hsuf, hruns⟩ := mem_runs_plain_andThen (plain_atLeastOne _) hruns
  obtain ⟨rfl, hdel⟩ := mem_runs_group plain_borderOrSpace hruns
  obtain ⟨k₁, hborder, k₂, hsign, hzero⟩ := hpref
  obtain ⟨before, hbefore, rfl, hb⟩ := spans_border hborder
  obtain ⟨after, hafter, rfl, ha⟩ := spans_border hdel
  have hle₂ := spans_le hsign
  have hle₃ := spans_le hzero
  have hlt₄ := lt_of_spans_atLeastOne hnum
  have hlt₅ := lt_of_spans_atLeastOne hsuf
  have hpre : slice prog start k₃ =
      before :: (slice prog (start + 1) k₂ ++ slice prog k₂ k₃) := by
    rw [slice_append _ hle₂ hle₃, ← slice_cons hbefore (by omega)]
  let l : Literal := ⟨before, slice prog (start + 1) k₂, slice prog k₂ k₃, slice prog k₃ k₄,
    slice prog k₄ k₅, after⟩
  refine ⟨l, { l with suffix := [] }, ?_, ?_, .suffix ?_ ?_, ?_⟩
  · exact ⟨hb, spans_sign hsign, spans_optionalZero hzero, forall_of_spans_atLeastOne hnum,
      forall_of_spans_atLeastOne hsuf, ha⟩
  · simp only [l, Literal.text]
    rw [← slice_one hafter, slice_append _ hle₂ hle₃, slice_append _ (by omega) hlt₄.le,
      slice_append _ (by omega) hlt₅.le, slice_append _ (by omega) (Nat.le_succ k₅),
      ← slice_cons hbefore (by omega)]
  · exact slice_ne_nil hlt₄ (spans_stop hnum hlt₄)
  · exact slice_ne_nil hlt₅ (spans_stop hsuf hlt₅)
  · rw [configC]
    simp only [group_first, group_next (show del ≠ numpart by decide),
      group_next (show del ≠ pref by decide), group_next (show numpart ≠ pref by decide)]
    rw [hpre, slice_one hafter]
    simp [l, Literal.text]

theorem configD_rewrites (hm : m ∈ finditer prog configD.search) :
    Rewrites ['d'] prog m (configD.replaceFn prog m) := by
  obtain ⟨start, stop, groups⟩ := m
  have hruns := mem_runs_of_mem_finditer hm
  obtain ⟨k₁, hpref, hruns⟩ := mem_runs_group_andThen plain_borderOrSpace hruns
  obtain ⟨k₃, hnum, hruns⟩ := mem_runs_group_andThen plain_literal hruns
  obtain ⟨rfl, hsuf⟩ := mem_runs_group plain_suffixPart hruns
  obtain ⟨i, hi, k₂, hx, hdigits⟩ := hnum
  have hzero : Spans prog zeroX k₁ k₂ := by
    obtain ⟨c, hc, hmem, rfl⟩ := spans_oneOfChars hx
    refine ⟨i, hi, spans_one.2 ⟨⟨c, hmem, ?_⟩, rfl⟩⟩
    simpa [or_comm] using hc
  obtain ⟨before, hbefore, rfl, hb⟩ := spans_border hpref
  obtain ⟨suffix, after, hslice, hsuffix, ha⟩ := spans_suffixPart hsuf
  have hle₂ := spans_le hzero
  have hlt₃ := lt_of_spans_atLeastOne hdigits
  have hle₄ := spans_le hsuf
  let l : Literal :=
    ⟨before, [], slice prog (start + 1) k₂, slice prog k₂ k₃, suffix, after⟩
  refine ⟨l, { l with zero := [], digits := natStr (hexValue (l.zero ++ l.digits)) }, ?_, ?_,
    .decimal rfl (spans_zeroX hzero) ?_, ?_⟩
  · exact ⟨hb, .inl rfl, .inr (.inr (spans_zeroX hzero)), forall_of_spans_atLeastOne hdigits,
      hsuffix, ha⟩
  · simp only [l, Literal.text]
    rw [List.nil_append, List.append_assoc, ← hslice, slice_append _ hle₂ hlt₃.le,
      slice_append _ (by omega) hle₄, ← slice_cons hbefore (by omega)]
  · exact slice_ne_nil hlt₃ (spans_stop hdigits hlt₃)
  · rw [configD]
    simp only [group_first, group_next (show suf ≠ numpart by decide),
      group_next (show suf ≠ pref by decide), group_next (show numpart ≠ pref by decide)]
    rw [hslice, slice_one hbefore, ← slice_append prog hle₂ hlt₃.le]
    simp [l, Literal.text]

def isX (c : Char) : Bool := c = 'x' || c = 'X'

theorem isX_iff : isX c = true ↔ c = 'x' ∨ c = 'X' := by simp [isX]

theorem natStr_countP (n : Nat) : (natStr n).countP isX = 0 := by
  rw [List.countP_eq_zero]
  intro c hc
  have hdigit : c.isDigit = true := by
    rw [natStr, Nat.repr, String.toList_ofList] at hc
    exact Nat.isDigit_of_mem_toDigits (by decide) (by decide) hc
  intro hx
  rcases isX_iff.1 hx with rfl | rfl
  · cases hdigit
  · cases hdigit

theorem hexDigits_countP {digits : Str} (h : ∀ d ∈ digits, isHexDigit d = true) :
    digits.countP isX = 0 := by
  rw [List.countP_eq_zero]
  intro c hc hx
  have hdigit := h c hc
  rcases isX_iff.1 hx with rfl | rfl
  · exact absurd hdigit (by decide)
  · exact absurd hdigit (by decide)

theorem getConfig_cases (h : getConfig arg = .ok config) : arg = ['a'] ∧ config = configA ∨
    arg = ['b'] ∧ config = configB ∨ arg = ['c'] ∧ config = configC ∨
      arg = ['d'] ∧ config = configD := by
  rw [getConfig] at h
  split at h
  · exact .inl ⟨‹_›, (Except.ok.inj h).symm⟩
  · split at h
    · exact .inr (.inl ⟨‹_›, (Except.ok.inj h).symm⟩)
    · split at h
      · exact .inr (.inr (.inl ⟨‹_›, (Except.ok.inj h).symm⟩))
      · split at h
        · exact .inr (.inr (.inr ⟨‹_›, (Except.ok.inj h).symm⟩))
        · cases h

theorem getConfig_rewrites (h : getConfig arg = .ok config) (hm : m ∈ finditer prog config.search) :
    Rewrites arg prog m (config.replaceFn prog m) := by
  rcases getConfig_cases h with ⟨rfl, rfl⟩ | ⟨rfl, rfl⟩ | ⟨rfl, rfl⟩ | ⟨rfl, rfl⟩
  · exact configA_rewrites hm
  · exact configB_rewrites hm
  · exact configC_rewrites hm
  · exact configD_rewrites hm

/-- What a success of the pass takes from the text: an `x`, or any characters. -/
def weighs (arg : Str) (c : Char) : Bool := arg ≠ ['d'] || isX c

theorem Rewriting.lighter (h : Rewriting arg l l') (hl : l.Proper) :
    l'.text.countP (weighs arg) < l.text.countP (weighs arg) := by
  have hone {s : Str} (hs : s ≠ []) (hall : ∀ c, weighs arg c = true) :
      0 < s.countP (weighs arg) := by
    obtain ⟨c, hc⟩ := List.exists_mem_of_ne_nil s hs
    exact List.countP_pos_iff.2 ⟨c, hc, hall c⟩
  simp only [Literal.text, List.countP_cons, List.countP_append]
  cases h with
  | firstDigit hdigits hrest hzero =>
    rw [hdigits, List.countP_cons]
    simp [weighs]
  | zeroPrefix hzero hdigits =>
    have hpos := hone hzero fun c => rfl
    simp only [List.countP_nil]
    omega
  | suffix hdigits hsuffix =>
    have hpos := hone hsuffix fun c => rfl
    simp only [List.countP_nil]
    omega
  | decimal hsign hzero hdigits =>
    have hx : weighs ['d'] = isX := funext fun c => by simp [weighs]
    have hpre : l.zero.countP isX = 1 := by
      rcases hzero with hzero | hzero
      · rw [hzero]
        rfl
      · rw [hzero]
        rfl
    simp only [hx, natStr_countP, hexDigits_countP hl.digits, hpre, List.countP_nil]
    omega

theorem ints_ends (h : getConfig arg = .ok config) (hnew : config.new prog = some s) :
    config.serial.Ends (s, prog) := by
  refine ModificationConfig.serial_ends (List.countP (weighs arg))
    (fun _ _ => List.countP_append) (fun prog m hm => ?_) hnew
  obtain ⟨l, l', hl, hslice, hrewriting, hreplacement⟩ := getConfig_rewrites h hm
  rw [hslice, hreplacement]
  exact hrewriting.lighter hl

/-- Each variant of a run rewrites one number of the text, and no sequence of test outcomes keeps
the pass busy forever. -/
theorem ints_variants (h : getConfig arg = .ok config) (hnew : config.new prog = some s) :
    config.serial.Ends (s, prog) ∧
      ∀ outcomes n s' text, config.serial.run outcomes (s, prog) n = some (s', text) →
        ∃ m ∈ finditer text config.search, ∃ replacement, Rewrites arg text m replacement ∧
          s'.transform text = .ok (text.take m.start ++ replacement ++ text.drop m.stop) := by
  refine ⟨ints_ends h hnew, fun outcomes n s' text hrun => ?_⟩
  have hstate := ModificationConfig.run_stateOf (ModificationConfig.new_stateOf hnew) hrun
  obtain ⟨m, hm, htransform⟩ := ModificationConfig.transform_stateOf hstate
  exact ⟨m, hm, _, getConfig_rewrites h hm, htransform⟩

/-- The first digits behind the prefixes of both numbers go, the later one's first. -/
theorem ints_variants_digit :
    configA.serial.Ends (⟨[⟨4, 9, " 02;".toList⟩, ⟨0, 4, " 2,".toList⟩], 0⟩, " 12, 012;".toList) ∧
      ∀ outcomes n s' text, configA.serial.run outcomes
          (⟨[⟨4, 9, " 02;".toList⟩, ⟨0, 4, " 2,".toList⟩], 0⟩, " 12, 012;".toList) n =
            some (s', text) →
        ∃ m ∈ finditer text configA.search, ∃ replacement, Rewrites ['a'] text m replacement ∧
          s'.transform text = .ok (text.take m.start ++ replacement ++ text.drop m.stop) :=
  ints_variants (show getConfig ['a'] = .ok configA from rfl)
    (show configA.new " 12, 012;".toList =
      some ⟨[⟨4, 9, " 02;".toList⟩, ⟨0, 4, " 2,".toList⟩], 0⟩ from rfl)

end IntsPass

namespace SpecialPass

def list : Nat := 0

/-- `s.split(',')[0]`. -/
def firstArgument (s : Str) : Str := s.takeWhile (· ≠ ',')

/-- Replace a call of `transparent_crc` by one of `printf`. -/
def configA : ModificationConfig where
  search := .andThen (word "transparent_crc".toList) (.andThen (many isSpace) (.andThen (lit '(')
    (.andThen (.group list (many (· ≠ ')'))) (lit ')'))))
  replaceFn prog m :=
    "printf('%d\\n', (int)".toList ++ firstArgument (m.group prog list) ++ ")".toList

def configB : ModificationConfig where
  search := word "extern 'C'".toList
  replaceFn _ _ := []

def configC : ModificationConfig where
  search := word "extern 'C++'".toList
  replaceFn _ _ := []

def getConfig (arg : Str) : Except PyErr ModificationConfig :=
  if arg = ['a'] then .ok configA
  else if arg = ['b'] then .ok configB
  else if arg = ['c'] then .ok configC
  else .error .unknownArgumentError

variable {prog : Str} {m : Match}

/-- What a variant of the pass does to a match. -/
def Rewrites (arg prog : Str) (m : Match) (replacement : Str) : Prop :=
  if arg = ['a'] then ∃ spaces list, (∀ c ∈ spaces, isSpace c = true) ∧ ')' ∉ list ∧
    slice prog m.start m.stop =
      "transparent_crc".toList ++ spaces ++ '(' :: list ++ [')'] ∧
    replacement = "printf('%d\\n', (int)".toList ++ firstArgument list ++ ")".toList
  else replacement = [] ∧ slice prog m.start m.stop =
    if arg = ['b'] then "extern 'C'".toList else "extern 'C++'".toList

theorem configA_rewrites (hm : m ∈ finditer prog configA.search) :
    Rewrites ['a'] prog m (configA.replaceFn prog m) := by
  obtain ⟨start, stop, groups⟩ := m
  have hruns := mem_runs_of_mem_finditer hm
  obtain ⟨k₁, hword, hruns⟩ := mem_runs_plain_andThen (plain_word _) hruns
  obtain ⟨k₂, hspaces, hruns⟩ := mem_runs_plain_andThen (plain_many isSpace) hruns
  obtain ⟨k₃, hopen, hruns⟩ := mem_runs_plain_andThen (plain_lit '(') hruns
  obtain ⟨k₄, hlist, hruns⟩ := mem_runs_group_andThen (plain_many (· ≠ ')')) hruns
  obtain rfl : groups = [(list, k₃, k₄)] := runs_groups (plain_lit ')') hruns
  have hclose := runs_iff.1 ⟨_, hruns⟩
  have hle₁ := spans_le hword
  have hle₂ := spans_le hspaces
  have hle₄ := spans_le hlist
  obtain ⟨hget₃, rfl⟩ := spans_lit.1 hopen
  obtain ⟨hget₄, rfl⟩ := spans_lit.1 hclose
  rw [Rewrites, if_pos rfl]
  refine ⟨slice prog k₁ k₂, slice prog (k₂ + 1) k₄, forall_of_spans_many hspaces, ?_, ?_, ?_⟩
  · intro hmem
    have hne := forall_of_spans_many hlist _ hmem
    cases hne
  · rw [← slice_of_spans_word hword, slice_append _ hle₁ hle₂, List.append_assoc, List.cons_append,
      ← slice_one hget₄, slice_append _ hle₄ (Nat.le_succ _),
      ← slice_cons hget₃ (by omega), slice_append _ (hle₁.trans hle₂) (by omega)]
  · rw [configA]
    simp only [group_first]

theorem getConfig_rewrites (h : getConfig arg = .ok config) (hm : m ∈ finditer prog config.search) :
    Rewrites arg prog m (config.replaceFn prog m) := by
  rw [getConfig] at h
  split at h
  · obtain rfl := Except.ok.inj h
    subst arg
    exact configA_rewrites hm
  · rename_i ha
    have hspans := (matchAt_some (matchAt_of_mem hm)).2
    rw [Rewrites, if_neg ha]
    split at h
    · rename_i hb
      obtain rfl := Except.ok.inj h
      rw [if_pos hb]
      exact ⟨rfl, slice_of_spans_word hspans⟩
    · rename_i hb
      split at h
      · obtain rfl := Except.ok.inj h
        rw [if_neg hb]
        exact ⟨rfl, slice_of_spans_word hspans⟩
      · cases h

/-- What a success of the pass takes from the text: an underscore, or any characters. -/
def weighs (arg : Str) (c : Char) : Bool := arg ≠ ['a'] || c = '_'

theorem rewrites_lighter {replacement : Str} (h : Rewrites arg prog m replacement) :
    replacement.countP (weighs arg) < (slice prog m.start m.stop).countP (weighs arg) := by
  by_cases ha : arg = ['a']
  · subst ha
    rw [Rewrites, if_pos rfl] at h
    obtain ⟨spaces, list, -, -, hslice, rfl⟩ := h
    have hfirst : (firstArgument list).countP (weighs ['a']) ≤ list.countP (weighs ['a']) :=
      (List.takeWhile_sublist _).countP_le
    have hprintf : ("printf('%d\\n', (int)".toList).countP (weighs ['a']) = 0 := rfl
    have hclose : (")".toList).countP (weighs ['a']) = 0 := rfl
    have hcrc : ("transparent_crc".toList).countP (weighs ['a']) = 1 := rfl
    rw [hslice, List.countP_append, List.countP_append, hprintf, hclose, List.countP_append,
      List.countP_append, List.countP_append, hcrc, List.countP_cons]
    omega
  · rw [Rewrites, if_neg ha] at h
    obtain ⟨rfl, hslice⟩ := h
    have hall : ∀ c, weighs arg c = true := fun c => by simp [weighs, ha]
    rw [hslice, List.countP_nil, List.countP_pos_iff]
    split
    · exact ⟨'e', by simp, hall _⟩
    · exact ⟨'e', by simp, hall _⟩

/-- Each variant of a run rewrites one call or takes one declaration's language out, and no sequence
of test outcomes keeps the pass busy forever. -/
theorem special_variants (h : getConfig arg = .ok config) (hnew : config.new prog = some s) :
    config.serial.Ends (s, prog) ∧
      ∀ outcomes n s' text, config.serial.run outcomes (s, prog) n = some (s', text) →
        ∃ m ∈ finditer text config.search, ∃ replacement, Rewrites arg text m replacement ∧
          s'.transform text = .ok (text.take m.start ++ replacement ++ text.drop m.stop) := by
  refine ⟨ModificationConfig.serial_ends (List.countP (weighs arg))
    (fun _ _ => List.countP_append)
    (fun prog m hm => rewrites_lighter (getConfig_rewrites h hm)) hnew,
    fun outcomes n s' text hrun => ?_⟩
  have hstate := ModificationConfig.run_stateOf (ModificationConfig.new_stateOf hnew) hrun
  obtain ⟨m, hm, htransform⟩ := ModificationConfig.transform_stateOf hstate
  exact ⟨m, hm, _, getConfig_rewrites h hm, htransform⟩

theorem special_variants_extern :
    configB.serial.Ends (⟨[⟨12, 22, []⟩, ⟨0, 10, []⟩], 0⟩, "extern 'C'; extern 'C';".toList) ∧
      ∀ outcomes n s' text, configB.serial.run outcomes
          (⟨[⟨12, 22, []⟩, ⟨0, 10, []⟩], 0⟩, "extern 'C'; extern 'C';".toList) n =
            some (s', text) →
        ∃ m ∈ finditer text configB.search, ∃ replacement, Rewrites ['b'] text m replacement ∧
          s'.transform text = .ok (text.take m.start ++ replacement ++ text.drop m.stop) :=
  special_variants (show getConfig ['b'] = .ok configB from rfl)
    (show configB.new "extern 'C'; extern 'C';".toList = some ⟨[⟨12, 22, []⟩, ⟨0, 10, []⟩], 0⟩
      from rfl)

end SpecialPass

end Cvise
