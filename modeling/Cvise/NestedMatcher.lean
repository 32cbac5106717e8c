import Cvise.Brackets
import Cvise.Dict

namespace Cvise
set_option autoImplicit true

/-- A compiled regular expression: where its match that begins at a position ends, if there is one. -/
structure RegEx where
  matchAt : Str → Nat → Option Nat
  bounds : ∀ string pos stop, matchAt string pos = some stop → pos ≤ stop ∧ stop ≤ string.length

namespace RegEx

/-- `regex.match(string, pos)`. -/
def matchFrom (r : RegEx) (string : Str) (pos : Nat) : Option (Nat × Nat) :=
  (r.matchAt string pos).map fun stop => (pos, stop)

/-- `regex.search(string, pos)`. -/
def search (r : RegEx) (string : Str) (pos : Nat) : Option (Nat × Nat) :=
  (List.range' pos (string.length + 1 - pos)).findSome? (r.matchFrom string)

end RegEx

namespace NestedMatcher

open Brackets

inductive BalancedExpr where
  | angles
  | curlies
  | parens
  | squares
deriving DecidableEq

def BalancedExpr.start : BalancedExpr → Char
  | angles => '<'
  | curlies => Char.ofNat 123
  | parens => '('
  | squares => '['

def BalancedExpr.stop : BalancedExpr → Char
  | angles => '>'
  | curlies => Char.ofNat 125
  | parens => ')'
  | squares => ']'

inductive Pattern where
  | regEx (expr : Str)
  | balanced (expr : BalancedExpr)
  | or (left right : Pattern)

/-- A pattern with its name, if it has one. -/
structure Part where
  pattern : Pattern
  name : Option Str := none

abbrev Matches := Dict Str (Nat × Nat)

section

-- `re.compile(expr, flags=re.DOTALL)`
variable (re : Str → RegEx)

def getRegexMatch (expr string : Str) (pos : Nat) (search : Bool) : Option (Nat × Nat) :=
  if search then (re expr).search string pos else (re expr).matchFrom string pos

/-- The loop of `__match_helper` over what is left of the string. -/
def balancedEnd (expr : BalancedExpr) : (depth pos : Nat) → (rest : Str) → Option Nat
  | 0, pos, _ => some pos
  | _ + 1, _, [] => none
  | depth + 1, pos, c :: rest =>
    if c = expr.start then balancedEnd expr (depth + 2) (pos + 1) rest
    else if c = expr.stop then balancedEnd expr depth (pos + 1) rest
    else balancedEnd expr (depth + 1) (pos + 1) rest

def matchHelper (expr : BalancedExpr) (string : Str) (pos : Nat) : Option (Nat × Nat) :=
  (balancedEnd expr 1 (pos + 1) (string.drop (pos + 1))).map fun stop => (pos, stop)

/-- The loop that looks for a balanced match from a position on. -/
def balancedSearch (expr : BalancedExpr) (string : Str) (pos : Nat) : Option (Nat × Nat) :=
  if pos < string.length then
    match (string.drop pos).findIdx? (· = expr.start) with
    | none => none
    | some k =>
      match matchHelper expr string (pos + k) with
      | some m => some m
      | none => balancedSearch expr string (pos + k + 1)
  else none
termination_by string.length - pos

def getBalancedMatch (expr : BalancedExpr) (string : Str) (pos : Nat) (search : Bool) :
    Option (Nat × Nat) :=
  if pos ≥ string.length then none
  else if search then balancedSearch expr string pos
  else if string[pos]? = some expr.start then matchHelper expr string pos
  else none

def getLeftmostMatch (candidates : List (Option (Nat × Nat))) : Option (Nat × Nat) :=
  match candidates.filterMap id with
  | [] => none
  | first :: rest => some (rest.foldl (fun leftmost m => if m.1 < leftmost.1 then m else leftmost) first)

def matchPattern (string : Str) (pos : Nat) (search : Bool) : Pattern → Option (Nat × Nat)
  | .or left right =>
    getLeftmostMatch [matchPattern string pos search left, matchPattern string pos search right]
  | .balanced expr => getBalancedMatch expr string pos search
  | .regEx expr => getRegexMatch re expr string pos search

/-- The loop of `search` over the parts: the matches by their names, and where the last one ends. -/
def matchParts (string : Str) (found : Matches) (pos : Nat) : List Part → Option (Matches × Nat)
  | [] => some (found, pos)
  | part :: parts =>
    match matchPattern re string pos false part.pattern with
    | none => none
    | some m =>
      matchParts string ((part.name.map fun name => setKey found name m).getD found)
        (pos + (m.2 - m.1)) parts

end

section

variable {re : Str → RegEx} {string : Str}

/-- The shortest balanced span that begins at a position. -/
structure ShortestBalanced (expr : BalancedExpr) (string : Str) (p stop : Nat) : Prop where
  opener : string[p]? = some expr.start
  lt : p < stop
  le : stop ≤ string.length
  level : height expr.start expr.stop string stop = height expr.start expr.stop string p
  shortest : ∀ k, p < k → k < stop →
    height expr.start expr.stop string k ≠ height expr.start expr.stop string p

/-- What a pattern matches at a position: of two alternatives the left one, if it matches. -/
def Pattern.Matches (re : Str → RegEx) (string : Str) : Pattern → Nat → Nat → Prop
  | .regEx expr, p, stop => (re expr).matchAt string p = some stop
  | .balanced expr, p, stop => ShortestBalanced expr string p stop
  | .or left right, p, stop => left.Matches re string p stop ∨
      ((∀ e, ¬ left.Matches re string p e) ∧ right.Matches re string p stop)

/-- The first match from a position on. -/
def Leftmost (M : Nat → Nat → Prop) (pos : Nat) : Option (Nat × Nat) → Prop
  | none => ∀ p stop, pos ≤ p → ¬ M p stop
  | some m => pos ≤ m.1 ∧ M m.1 m.2 ∧ ∀ p stop, pos ≤ p → p < m.1 → ¬ M p stop

theorem start_ne_stop (expr : BalancedExpr) : expr.start ≠ expr.stop := by
  cases expr <;> decide

/-- The loop ends where the string is back on the level that it is to reach. -/
theorem balancedEnd_iff {expr : BalancedExpr} (h : string.drop pos = rest)
    (hle : pos ≤ string.length) : balancedEnd expr depth pos rest = some stop ↔
      pos ≤ stop ∧ stop ≤ string.length ∧
      height expr.start expr.stop string stop + depth = height expr.start expr.stop string pos ∧
      ∀ k, pos ≤ k → k < stop → height expr.start expr.stop string k + depth ≠
        height expr.start expr.stop string pos := by
  induction rest generalizing pos depth with
  | nil =>
    have hpos : pos = string.length := hle.antisymm (List.drop_eq_nil_iff.1 h)
    cases depth with
    | zero =>
      rw [balancedEnd, Option.some.injEq]
      constructor
      · rintro rfl
        exact ⟨Nat.le_refl _, hle, by simp, fun k hk hk' => absurd hk (Nat.not_le.2 hk')⟩
      · rintro ⟨hge, hstop, -, -⟩
        omega
    | succ depth =>
      rw [balancedEnd]
      refine ⟨fun h => (Option.some_ne_none _ h.symm).elim, ?_⟩
      rintro ⟨hge, hstop, hlevel, -⟩
      obtain rfl : stop = pos := by omega
      push_cast at hlevel
      omega
  | cons c rest ih =>
    have hc : string[pos]? = some c := by
      rw [← List.head?_drop, h, List.head?_cons]
    have hlt : pos < string.length := (List.getElem?_eq_some_iff.1 hc).1
    have hrest : string.drop (pos + 1) = rest := by
      rw [← List.drop_drop, h, List.drop_one, List.tail_cons]
    cases depth with
    | zero =>
      rw [balancedEnd, Option.some.injEq]
      constructor
      · rintro rfl
        exact ⟨Nat.le_refl _, hle, by simp, fun k hk hk' => absurd hk (Nat.not_le.2 hk')⟩
      · rintro ⟨hge, -, -, hshort⟩
        by_contra hne
        exact hshort pos (Nat.le_refl _) (by omega) (by simp)
    | succ depth =>
      have hgoesOn (d : Nat) (hd : height expr.start expr.stop string (pos + 1) + (depth + 1 : Nat) =
          height expr.start expr.stop string pos + d) :
          balancedEnd expr d (pos + 1) rest = some stop ↔ pos ≤ stop ∧ stop ≤ string.length ∧
            height expr.start expr.stop string stop + (depth + 1 : Nat) =
              height expr.start expr.stop string pos ∧
            ∀ k, pos ≤ k → k < stop → height expr.start expr.stop string k + (depth + 1 : Nat) ≠
              height expr.start expr.stop string pos := by
        rw [ih hrest hlt]
        constructor
        · rintro ⟨hge, hstop, hlevel, hshort⟩
          refine ⟨by omega, hstop, by omega, fun k hk hk' => ?_⟩
          rcases hk.lt_or_eq with hk | rfl
          · have hne := hshort k hk hk'
            omega
          · push_cast
            omega
        · rintro ⟨hge, hstop, hlevel, hshort⟩
          have hne : stop ≠ pos := by
            rintro rfl
            push_cast at hlevel
            omega
          refine ⟨by omega, hstop, by omega, fun k hk hk' => ?_⟩
          have hne := hshort k (by omega) hk'
          omega
      rw [balancedEnd]
      split
      · rename_i hopen
        have hup := height_opener (start_ne_stop expr) (hopen ▸ hc)
        exact hgoesOn (depth + 2) (by rw [hup]; push_cast; omega)
      · rename_i hopen
        split
        · rename_i hclose
          have hdown := height_closer (start_ne_stop expr) (hclose ▸ hc)
          exact hgoesOn depth (by rw [hdown]; push_cast; omega)
        · rename_i hclose
          have hsame := height_other hc hopen hclose
          exact hgoesOn (depth + 1) (by rw [hsame])

theorem matchHelper_iff {expr : BalancedExpr} (h : string[p]? = some expr.start) :
    matchHelper expr string p = some m ↔ m.1 = p ∧ ShortestBalanced expr string p m.2 := by
  have hlt := (List.getElem?_eq_some_iff.1 h).1
  have hup := height_opener (start_ne_stop expr) h
  have hend (e : Nat) : balancedEnd expr 1 (p + 1) (string.drop (p + 1)) = some e ↔
      p + 1 ≤ e ∧ e ≤ string.length ∧
      height expr.start expr.stop string e + (1 : Nat) = height expr.start expr.stop string (p + 1) ∧
      ∀ k, p + 1 ≤ k → k < e → height expr.start expr.stop string k + (1 : Nat) ≠
        height expr.start expr.stop string (p + 1) := balancedEnd_iff rfl hlt
  obtain ⟨p', stop⟩ := m
  rw [matchHelper, Option.map_eq_some_iff]
  constructor
  · rintro ⟨e, he, hm⟩
    obtain ⟨rfl, rfl⟩ := Prod.mk.inj hm
    obtain ⟨hge, hstop, hlevel, hshort⟩ := (hend e).1 he
    refine ⟨rfl, h, hge, hstop, ?_, fun k hk hk' => ?_⟩
    · show height expr.start expr.stop string e = height expr.start expr.stop string p
      omega
    · have hne := hshort k hk hk'
      omega
  · rintro ⟨hp, hspan⟩
    obtain rfl : p' = p := hp
    have hlevel : height expr.start expr.stop string stop = height expr.start expr.stop string p' :=
      hspan.level
    refine ⟨stop, (hend stop).2 ⟨hspan.lt, hspan.le, by omega, fun k hk hk' => ?_⟩, rfl⟩
    have hne := hspan.shortest k hk hk'
    omega

theorem leftmost_regEx (expr : Str) (pos : Nat) :
    Leftmost ((Pattern.regEx expr).Matches re string) pos ((re expr).search string pos) := by
  have hmatch (p : Nat) : (re expr).matchFrom string p = none ↔
      ∀ stop, ¬ (Pattern.regEx expr).Matches re string p stop := by
    rw [RegEx.matchFrom, Option.map_eq_none_iff, Option.eq_none_iff_forall_ne_some]
    rfl
  rw [RegEx.search]
  cases h : (List.range' pos (string.length + 1 - pos)).findSome? ((re expr).matchFrom string) with
  | none =>
    intro p stop hp hm
    have hle := (re expr).bounds string p stop hm
    have hnone := List.findSome?_eq_none_iff.1 h p (List.mem_range'_1.2 (by omega))
    exact (hmatch p).1 hnone stop hm
  | some m =>
    obtain ⟨before, p, after, hrange, hp, hbefore⟩ := List.findSome?_eq_some_iff.1 h
    obtain ⟨stop, hstop, rfl⟩ := Option.map_eq_some_iff.1 hp
    have hsorted : (List.range' pos (string.length + 1 - pos)).Pairwise (· < ·) :=
      List.pairwise_lt_range'
    rw [hrange, List.pairwise_append, List.pairwise_cons] at hsorted
    have hmem : p ∈ List.range' pos (string.length + 1 - pos) := by
      rw [hrange]
      exact List.mem_append_right _ List.mem_cons_self
    have hbounds := List.mem_range'_1.1 hmem
    refine ⟨hbounds.1, hstop, fun q e hq hlt hm => ?_⟩
    have hin : q ∈ List.range' pos (string.length + 1 - pos) :=
      List.mem_range'_1.2 ⟨hq, (show q < p from hlt).trans hbounds.2⟩
    rw [hrange] at hin
    rcases List.mem_append.1 hin with hin | hin
    · exact (hmatch q).1 (hbefore q hin) e hm
    · rcases List.mem_cons.1 hin with rfl | hin
      · exact absurd hlt (Nat.lt_irrefl _)
      · exact absurd hlt (Nat.not_lt.2 (hsorted.2.1.1 q hin).le)

/-- The first match from a later position, where there is none before that. -/
theorem Leftmost.earlier {M : Nat → Nat → Prop} {m : Option (Nat × Nat)} (h : Leftmost M pos' m)
    (hle : pos ≤ pos') (hnot : ∀ p e, pos ≤ p → p < pos' → ¬ M p e) : Leftmost M pos m := by
  cases m with
  | none =>
    intro p e hp hm
    rcases Nat.lt_or_ge p pos' with hlt | hge
    · exact hnot p e hp hlt hm
    · exact h p e hge hm
  | some m =>
    refine ⟨hle.trans h.1, h.2.1, fun p e hp hlt hm => ?_⟩
    rcases Nat.lt_or_ge p pos' with hlt' | hge
    · exact hnot p e hp hlt' hm
    · exact h.2.2 p e hge hlt hm

theorem leftmost_balanced (expr : BalancedExpr) (pos : Nat) :
    Leftmost ((Pattern.balanced expr).Matches re string) pos (balancedSearch expr string pos) := by
  induction hn : string.length - pos using Nat.strong_induction_on generalizing pos with
  | _ n ih =>
    have hnone {q e : Nat} (h : ∀ c, string[q]? = some c → c ≠ expr.start) :
        ¬ (Pattern.balanced expr).Matches re string q e := fun hm => h _ hm.opener rfl
    rw [balancedSearch]
    split
    · rename_i hlt
      cases hfind : (string.drop pos).findIdx? (· = expr.start) with
      | none =>
        intro p e hp
        refine hnone fun c hc hstart => ?_
        have hmem : c ∈ string.drop pos := by
          refine List.mem_of_getElem? (i := p - pos) ?_
          rw [List.getElem?_drop, Nat.add_sub_cancel' hp, hc]
        simpa [hstart] using List.findIdx?_eq_none_iff.1 hfind c hmem
      | some k =>
        obtain ⟨hk, hat, hbefore⟩ := List.findIdx?_eq_some_iff_getElem.1 hfind
        rw [List.length_drop] at hk
        rw [List.getElem_drop] at hat
        have hopen : string[pos + k]? = some expr.start := by
          rw [List.getElem?_eq_getElem (by omega)]
          exact congrArg some (of_decide_eq_true hat)
        have hskip (q e : Nat) (hq : pos ≤ q) (hlt : q < pos + k) :
            ¬ (Pattern.balanced expr).Matches re string q e := by
          refine hnone fun c hc hstart => ?_
          have hnot := hbefore (q - pos) (by omega)
          rw [List.getElem_drop] at hnot
          simp only [Nat.add_sub_cancel' hq] at hnot
          rw [(List.getElem?_eq_some_iff.1 hc).2, hstart] at hnot
          exact hnot (decide_eq_true rfl)
        simp only
        cases hm : matchHelper expr string (pos + k) with
        | some m =>
          obtain ⟨hp, hspan⟩ := (matchHelper_iff hopen).1 hm
          refine ⟨by omega, hp ▸ hspan, fun p e hle hlt => hskip p e hle (hp ▸ hlt)⟩
        | none =>
          have hhere (e : Nat) : ¬ (Pattern.balanced expr).Matches re string (pos + k) e := fun hs =>
            Option.some_ne_none _ (((matchHelper_iff (m := (pos + k, e)) hopen).2 ⟨rfl, hs⟩).symm.trans hm)
          have hrest := ih (string.length - (pos + k + 1)) (by omega) (pos + k + 1) rfl
          simp only
          have hnot (p e : Nat) (hp : pos ≤ p) (hlt : p < pos + k + 1) :
              ¬ (Pattern.balanced expr).Matches re string p e := by
            rcases (Nat.lt_succ_iff.1 hlt).lt_or_eq with hlt | rfl
            · exact hskip p e hp hlt
            · exact hhere e
          exact hrest.earlier (by omega) hnot
    · intro p e hp
      refine hnone fun c hc => ?_
      have hlt := (List.getElem?_eq_some_iff.1 hc).1
      omega

theorem leftmost_or {left right : Pattern} (hl : Leftmost (left.Matches re string) pos a)
    (hr : Leftmost (right.Matches re string) pos b) :
    Leftmost ((Pattern.or left right).Matches re string) pos (getLeftmostMatch [a, b]) := by
  cases a with
  | none =>
    cases b with
    | none => exact fun p e hp hm => hm.elim (hl p e hp) fun h => hr p e hp h.2
    | some b =>
      refine ⟨hr.1, .inr ⟨fun e => hl b.1 e hr.1, hr.2.1⟩, fun p e hp hlt hm => ?_⟩
      exact hm.elim (hl p e hp) fun h => hr.2.2 p e hp hlt h.2
  | some a =>
    cases b with
    | none =>
      refine ⟨hl.1, .inl hl.2.1, fun p e hp hlt hm => ?_⟩
      exact hm.elim (hl.2.2 p e hp hlt) fun h => hr p e hp h.2
    | some b =>
      show Leftmost _ pos (some (if b.1 < a.1 then b else a))
      split
      · rename_i hlt
        refine ⟨hr.1, .inr ⟨fun e => hl.2.2 b.1 e hr.1 hlt, hr.2.1⟩, fun p e hp hp' hm => ?_⟩
        exact hm.elim (hl.2.2 p e hp (hp'.trans hlt)) fun h => hr.2.2 p e hp hp' h.2
      · rename_i hge
        refine ⟨hl.1, .inl hl.2.1, fun p e hp hp' hm => ?_⟩
        exact hm.elim (hl.2.2 p e hp hp') fun h =>
          hr.2.2 p e hp (Nat.lt_of_lt_of_le hp' (Nat.not_lt.1 hge)) h.2

theorem matchPattern_leftmost (pattern : Pattern) (pos : Nat) :
    Leftmost (pattern.Matches re string) pos (matchPattern re string pos true pattern) := by
  induction pattern with
  | regEx expr => exact leftmost_regEx expr pos
  | balanced expr =>
    show Leftmost _ pos (getBalancedMatch expr string pos true)
    rw [getBalancedMatch]
    split
    · rename_i hge
      intro p e hp hm
      have hlt := hm.lt
      have hle := hm.le
      omega
    · exact leftmost_balanced expr pos
  | or left right hl hr => exact leftmost_or hl hr

theorem matchPattern_anchored {pattern : Pattern} :
    matchPattern re string pos false pattern = some m ↔
      m.1 = pos ∧ pattern.Matches re string pos m.2 := by
  induction pattern generalizing m with
  | regEx expr =>
    show (re expr).matchFrom string pos = some m ↔ _
    rw [RegEx.matchFrom, Option.map_eq_some_iff]
    constructor
    · rintro ⟨e, he, rfl⟩
      exact ⟨rfl, he⟩
    · rintro ⟨rfl, hm⟩
      exact ⟨m.2, hm, rfl⟩
  | balanced expr =>
    show getBalancedMatch expr string pos false = some m ↔ _
    rw [getBalancedMatch]
    split
    · rename_i hge
      refine ⟨fun h => (Option.some_ne_none _ h.symm).elim, ?_⟩
      rintro ⟨-, hm⟩
      have hlt := hm.lt
      have hle := hm.le
      omega
    · rw [if_neg Bool.false_ne_true]
      split
      · rename_i hopen
        exact matchHelper_iff hopen
      · rename_i hopen
        exact ⟨fun h => (Option.some_ne_none _ h.symm).elim, fun h => absurd h.2.opener hopen⟩
  | or left right hl hr =>
    have hnone {pattern : Pattern} (h : matchPattern re string pos false pattern = none)
        (hiff : ∀ {m}, matchPattern re string pos false pattern = some m ↔
          m.1 = pos ∧ pattern.Matches re string pos m.2) (e : Nat) :
        ¬ pattern.Matches re string pos e := fun hm =>
      Option.some_ne_none _ ((hiff (m := (pos, e))).2 ⟨rfl, hm⟩ |>.symm.trans h)
    rw [matchPattern]
    cases ha : matchPattern re string pos false left with
    | none =>
      have hleft := hnone ha hl
      cases hb : matchPattern re string pos false right with
      | none =>
        refine ⟨fun h => (Option.some_ne_none _ h.symm).elim, ?_⟩
        rintro ⟨-, hm | hm⟩
        · exact absurd hm (hleft m.2)
        · exact absurd hm.2 (hnone hb hr m.2)
      | some b =>
        show some b = some m ↔ _
        rw [← hb, hr]
        refine and_congr_right fun _ => ⟨fun hm => .inr ⟨hleft, hm⟩, ?_⟩
        rintro (hm | hm)
        · exact absurd hm (hleft m.2)
        · exact hm.2
    | some a =>
      have hat := hl.1 ha
      have hleft : getLeftmostMatch [some a, matchPattern re string pos false right] = some a := by
        cases hb : matchPattern re string pos false right with
        | none => rfl
        | some b =>
          have hb' := hr.1 hb
          show some (if b.1 < a.1 then b else a) = some a
          rw [if_neg (by omega)]
      rw [hleft, ← ha, hl]
      refine and_congr_right fun _ => ⟨.inl, ?_⟩
      rintro (hm | hm)
      · exact hm
      · exact absurd hat.2 (hm.1 a.2)

theorem matchPattern_ge {pattern : Pattern}
    (h : matchPattern re string pos search pattern = some m) : pos ≤ m.1 := by
  cases search with
  | false => exact (matchPattern_anchored.1 h).1.ge
  | true =>
    have hleft : Leftmost (pattern.Matches re string) pos _ := matchPattern_leftmost pattern pos
    rw [h] at hleft
    exact hleft.1

end

section

variable (re : Str → RegEx)

def searchLoop (parts : List Part) (first : Pattern) (string : Str) (search : Bool) (startPos : Nat) :
    Option Matches :=
  if startPos < string.length then
    match _ : matchPattern re string startPos search first with
    | none => none
    | some m =>
      match matchParts re string [] m.1 parts with
      | some (found, pos) => some (setKey found "all".toList (m.1, pos))
      | none => searchLoop parts first string search (m.1 + 1)
  else none
termination_by string.length - startPos
decreasing_by
  have := matchPattern_ge (by assumption)
  omega

def search (parts : List Part) (string : Str) (pos : Int) (search : Bool) : Option Matches :=
  match parts with
  | [] => none
  | first :: _ =>
    if pos < 0 ∨ pos ≥ string.length then none
    else searchLoop re parts first.pattern string search pos.toNat

end

end NestedMatcher

end Cvise
