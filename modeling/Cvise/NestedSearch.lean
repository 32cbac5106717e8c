import Cvise.NestedMatcher

namespace Cvise
set_option autoImplicit true

namespace NestedMatcher

variable {re : Str → RegEx} {string : Str}

/-- The parts match one after another from a position on, each where the one before it ends. -/
def Chain (re : Str → RegEx) (string : Str) : List Part → Nat → List (Nat × Nat) → Prop
  | [], _, spans => spans = []
  | part :: parts, p, spans => ∃ stop rest, part.pattern.Matches re string p stop ∧
      spans = (p, stop) :: rest ∧ Chain re string parts stop rest

/-- Where spans end that follow each other from a position on. -/
def endOf (p : Nat) (spans : List (Nat × Nat)) : Nat := (spans.getLast?.map Prod.snd).getD p

/-- What `search` returns for spans that follow each other from a position on. A name that parts
share stands for the last one of them. -/
structure Reports (parts : List Part) (spans : List (Nat × Nat)) (p : Nat) (m : Matches) : Prop where
  all : getKey m "all".toList = some (p, endOf p spans)
  named : ∀ name, name ≠ "all".toList → getKey m name =
    ((parts.zip spans).reverse.find? fun x => x.1.name = some name).map Prod.snd

/-- Some spans follow each other from a position on. -/
def MatchesAt (re : Str → RegEx) (string : Str) (parts : List Part) (p : Nat) : Prop :=
  ∃ spans, Chain re string parts p spans

theorem Pattern.Matches.bounds {pattern : Pattern} (h : pattern.Matches re string p stop) :
    p ≤ stop ∧ stop ≤ string.length := by
  induction pattern with
  | regEx expr => exact (re expr).bounds string p stop h
  | balanced expr => exact ⟨h.lt.le, h.le⟩
  | or left right hl hr => exact h.elim hl fun h => hr h.2

/-- The spans in the dictionary of `search`, by the names of their parts. -/
def record (found : Matches) (named : List (Part × (Nat × Nat))) : Matches :=
  named.foldl (fun found x => (x.1.name.map fun name => setKey found name x.2).getD found) found

theorem getKey_record (found : Matches) (named : List (Part × (Nat × Nat))) (name : Str) :
    getKey (record found named) name =
      ((named.reverse.find? fun x => x.1.name = some name).map Prod.snd).or (getKey found name) := by
  induction named generalizing found with
  | nil => rfl
  | cons x named ih =>
    rw [record, List.foldl_cons, ← record, ih, List.reverse_cons, List.find?_append]
    cases named.reverse.find? fun x => x.1.name = some name with
    | some y => rfl
    | none =>
      rw [Option.none_or]
      cases hx : x.1.name with
      | none =>
        rw [List.find?_cons_of_neg (by simp [hx])]
        rfl
      | some name' =>
        by_cases hname : name' = name
        · rw [List.find?_cons_of_pos (by simp [hx, hname]), hname]
          exact getKey_setKey_self found name x.2
        · rw [List.find?_cons_of_neg (by simpa [hx] using hname)]
          exact getKey_setKey_ne (Ne.symm hname) x.2

theorem endOf_cons (p : Nat) (span : Nat × Nat) (spans : List (Nat × Nat)) :
    endOf p (span :: spans) = endOf span.2 spans := by
  cases spans with
  | nil => rfl
  | cons s spans =>
    rw [endOf, endOf, List.getLast?_cons_cons]
    cases h : (s :: spans).getLast? with
    | none => exact absurd (List.getLast?_eq_none_iff.1 h) (List.cons_ne_nil s spans)
    | some last => rfl

theorem matchParts_chain {parts : List Part} {spans : List (Nat × Nat)}
    (h : Chain re string parts p spans) (found : Matches) :
    matchParts re string found p parts = some (record found (parts.zip spans), endOf p spans) := by
  induction parts generalizing p spans found with
  | nil =>
    obtain rfl : spans = [] := h
    rfl
  | cons part parts ih =>
    obtain ⟨stop, rest, hm, rfl, hrest⟩ := h
    have hle := hm.bounds.1
    rw [matchParts, (matchPattern_anchored (m := (p, stop))).2 ⟨rfl, hm⟩]
    show matchParts re string _ (p + (stop - p)) parts = _
    rw [Nat.add_sub_cancel' hle, ih hrest, endOf_cons]
    rfl

theorem chain_of_matchParts {parts : List Part}
    (h : matchParts re string found p parts = some r) : MatchesAt re string parts p := by
  induction parts generalizing p found with
  | nil => exact ⟨[], rfl⟩
  | cons part parts ih =>
    rw [matchParts] at h
    cases hm : matchPattern re string p false part.pattern with
    | none =>
      rw [hm] at h
      cases h
    | some m =>
      rw [hm] at h
      obtain ⟨hp, hmatch⟩ := matchPattern_anchored.1 hm
      have hpos : p + (m.2 - m.1) = m.2 := by
        have hle := hmatch.bounds.1
        omega
      simp only [hpos] at h
      obtain ⟨rest, hrest⟩ := ih h
      exact ⟨(p, m.2) :: rest, m.2, rest, hmatch, rfl, hrest⟩

theorem reports_record {parts : List Part} {spans : List (Nat × Nat)}
    (h : Chain re string parts p spans) : ∃ found, matchParts re string [] p parts = some (found, endOf p spans) ∧
      Reports parts spans p (setKey found "all".toList (p, endOf p spans)) := by
  refine ⟨_, matchParts_chain h [], getKey_setKey_self _ _ _, fun name hname => ?_⟩
  rw [getKey_setKey_ne hname, getKey_record]
  exact Option.or_none

theorem found_of_matchesAt {parts : List Part} (h : MatchesAt re string parts p) :
    ∃ spans, Chain re string parts p spans ∧ ∃ found,
      matchParts re string [] p parts = some (found, endOf p spans) ∧
      Reports parts spans p (setKey found "all".toList (p, endOf p spans)) := by
  obtain ⟨spans, hspans⟩ := h
  exact ⟨spans, hspans, reports_record hspans⟩

theorem not_matchesAt_of_matchParts {parts : List Part}
    (h : matchParts re string [] p parts = none) : ¬ MatchesAt re string parts p := by
  intro hm
  obtain ⟨spans, -, found, hfound, -⟩ := found_of_matchesAt hm
  exact Option.some_ne_none _ (hfound.symm.trans h)

/-- The spans of the match at a position, where the parts match from there on. -/
def Found (re : Str → RegEx) (string : Str) (parts : List Part) (p : Nat) (m : Matches) : Prop :=
  ∃ spans, Chain re string parts p spans ∧ Reports parts spans p m

theorem searchLoop_end {parts : List Part} {first : Pattern} (h : ¬ start < string.length) :
    searchLoop re parts first string mode start = none := by
  rw [searchLoop, if_neg h]

theorem searchLoop_none {parts : List Part} {first : Pattern} (h : start < string.length)
    (hm : matchPattern re string start mode first = none) :
    searchLoop re parts first string mode start = none := by
  rw [searchLoop, if_pos h]
  split
  · rfl
  · rename_i m hm'
    exact absurd (hm.symm.trans hm').symm (Option.some_ne_none m)

theorem searchLoop_found {parts : List Part} {first : Pattern}
    (h : start < string.length) (hm : matchPattern re string start mode first = some m)
    (hfound : matchParts re string [] m.1 parts = some (found, stop)) :
    searchLoop re parts first string mode start =
      some (setKey found "all".toList (m.1, stop)) := by
  rw [searchLoop, if_pos h]
  split
  · rename_i hm'
    exact absurd (hm.symm.trans hm') (Option.some_ne_none m)
  · rename_i m' hm'
    obtain rfl := Option.some.inj (hm.symm.trans hm')
    rw [hfound]

theorem searchLoop_next {parts : List Part} {first : Pattern}
    (h : start < string.length) (hm : matchPattern re string start mode first = some m)
    (hnone : matchParts re string [] m.1 parts = none) :
    searchLoop re parts first string mode start =
      searchLoop re parts first string mode (m.1 + 1) := by
  rw [searchLoop, if_pos h]
  split
  · rename_i hm'
    exact absurd (hm.symm.trans hm') (Option.some_ne_none m)
  · rename_i m' hm'
    obtain rfl := Option.some.inj (hm.symm.trans hm')
    rw [hnone]

/-- What is found from a position on: the first place where the parts match, if there is one. -/
def FirstFound (re : Str → RegEx) (string : Str) (parts : List Part) (pos : Nat) :
    Option Matches → Prop
  | none => ∀ p, pos ≤ p → p < string.length → ¬ MatchesAt re string parts p
  | some m => ∃ p, pos ≤ p ∧ p < string.length ∧ Found re string parts p m ∧
      ∀ q, pos ≤ q → q < p → ¬ MatchesAt re string parts q

theorem FirstFound.earlier {parts : List Part} {m : Option Matches}
    (h : FirstFound re string parts pos' m) (hle : pos ≤ pos')
    (hnot : ∀ q, pos ≤ q → q < pos' → ¬ MatchesAt re string parts q) :
    FirstFound re string parts pos m := by
  cases m with
  | none =>
    intro p hp hp'
    rcases Nat.lt_or_ge p pos' with hlt | hge
    · exact hnot p hp hlt
    · exact h p hge hp'
  | some m =>
    obtain ⟨p, hp, hp', hfound, hno⟩ := h
    refine ⟨p, hle.trans hp, hp', hfound, fun q hq hlt => ?_⟩
    rcases Nat.lt_or_ge q pos' with hlt' | hge
    · exact hnot q hq hlt'
    · exact hno q hge hlt

theorem MatchesAt.head {first : Part} {parts : List Part}
    (h : MatchesAt re string (first :: parts) p) :
    ∃ stop, first.pattern.Matches re string p stop := by
  obtain ⟨spans, stop, rest, hm, -⟩ := h
  exact ⟨stop, hm⟩

theorem searchLoop_searching {first : Part} {parts : List Part}
    (hfirst : ∀ p stop, first.pattern.Matches re string p stop → p < stop) (start : Nat) :
    FirstFound re string (first :: parts) start
      (searchLoop re (first :: parts) first.pattern string true start) := by
  induction hn : string.length - start using Nat.strong_induction_on generalizing start with
  | _ n ih =>
    by_cases hlt : start < string.length
    · have hleft : Leftmost (first.pattern.Matches re string) start _ :=
        matchPattern_leftmost first.pattern start
      cases hm : matchPattern re string start true first.pattern with
      | none =>
        rw [hm] at hleft
        rw [searchLoop_none hlt hm]
        intro p hp _ hmatch
        obtain ⟨stop, hstop⟩ := hmatch.head
        exact hleft p stop hp hstop
      | some m =>
        rw [hm] at hleft
        obtain ⟨hge, hhere, hbefore⟩ := hleft
        have hskip (q : Nat) (hq : start ≤ q) (hlt : q < m.1) :
            ¬ MatchesAt re string (first :: parts) q := fun h => by
          obtain ⟨stop, hstop⟩ := h.head
          exact hbefore q stop hq hlt hstop
        cases hparts : matchParts re string [] m.1 (first :: parts) with
        | some r =>
          obtain ⟨spans, hspans, found, hfound, hreports⟩ :=
            found_of_matchesAt (chain_of_matchParts hparts)
          rw [searchLoop_found hlt hm hfound]
          have hin : m.1 < string.length :=
            Nat.lt_of_lt_of_le (hfirst _ _ hhere) hhere.bounds.2
          exact ⟨m.1, hge, hin, ⟨spans, hspans, hreports⟩, hskip⟩
        | none =>
          rw [searchLoop_next hlt hm hparts]
          refine (ih (string.length - (m.1 + 1)) (by omega) (m.1 + 1) rfl).earlier (by omega) ?_
          intro q hq hlt
          rcases (Nat.lt_succ_iff.1 hlt).lt_or_eq with hlt | rfl
          · exact hskip q hq hlt
          · exact not_matchesAt_of_matchParts hparts
    · rw [searchLoop_end hlt]
      intro p hp hp'
      omega

def FirstMatches (re : Str → RegEx) (string : Str) (parts : List Part) (p : Nat) : Prop :=
  ∃ part ∈ parts.head?, ∃ stop, part.pattern.Matches re string p stop

/-- What the anchored mode finds: it goes on to the next position for as long as the first part
matches. -/
def NextFound (re : Str → RegEx) (string : Str) (parts : List Part) (pos : Nat) :
    Option Matches → Prop
  | none => ∀ p, pos ≤ p → p < string.length →
      (∀ q, pos ≤ q → q < p → FirstMatches re string parts q) → ¬ MatchesAt re string parts p
  | some m => ∃ p, pos ≤ p ∧ p < string.length ∧ Found re string parts p m ∧
      ∀ q, pos ≤ q → q < p → FirstMatches re string parts q ∧ ¬ MatchesAt re string parts q

theorem searchLoop_anchored {first : Part} {parts : List Part} (start : Nat) :
    NextFound re string (first :: parts) start
      (searchLoop re (first :: parts) first.pattern string false start) := by
  induction hn : string.length - start using Nat.strong_induction_on generalizing start with
  | _ n ih =>
    by_cases hlt : start < string.length
    · cases hm : matchPattern re string start false first.pattern with
      | none =>
        rw [searchLoop_none hlt hm]
        have hnot : ¬ FirstMatches re string (first :: parts) start := by
          rintro ⟨part, hpart, stop, hstop⟩
          obtain rfl := Option.some.inj hpart
          have hsome := (matchPattern_anchored (m := (start, stop))).2 ⟨rfl, hstop⟩
          exact Option.some_ne_none _ (hsome.symm.trans hm)
        intro p hp _ hall hmatch
        rcases hp.lt_or_eq with hp | rfl
        · exact hnot (hall start (Nat.le_refl _) hp)
        · exact hnot ⟨first, rfl, hmatch.head⟩
      | some m =>
        obtain ⟨hstart, hhere⟩ := matchPattern_anchored.1 hm
        cases hparts : matchParts re string [] m.1 (first :: parts) with
        | some r =>
          obtain ⟨spans, hspans, found, hfound, hreports⟩ :=
            found_of_matchesAt (chain_of_matchParts hparts)
          rw [searchLoop_found hlt hm hfound]
          exact ⟨m.1, hstart.ge, hstart ▸ hlt, ⟨spans, hspans, hreports⟩, fun q hq hlt => by omega⟩
        | none =>
          have hnot := not_matchesAt_of_matchParts hparts
          rw [searchLoop_next hlt hm hparts, hstart]
          rw [hstart] at hnot
          have hfirst : FirstMatches re string (first :: parts) start := ⟨first, rfl, m.2, hhere⟩
          have hrest := ih (string.length - (start + 1)) (by omega) (start + 1) rfl
          cases hloop : searchLoop re (first :: parts) first.pattern string false (start + 1) with
          | none =>
            rw [hloop] at hrest
            intro p hp hp' hall
            rcases hp.lt_or_eq with hp | rfl
            · exact hrest p hp hp' fun q hq hlt => hall q (by omega) hlt
            · exact hnot
          | some r =>
            rw [hloop] at hrest
            obtain ⟨p, hp, hp', hfound, hall⟩ := hrest
            refine ⟨p, by omega, hp', hfound, fun q hq hlt => ?_⟩
            rcases hq.lt_or_eq with hq | rfl
            · exact hall q hq hlt
            · exact ⟨hfirst, hnot⟩
    · rw [searchLoop_end hlt]
      intro p hp hp'
      omega

/-- A match that is not searched for begins at the position, and is found only if there is one. -/
def StaysAtPos (re : Str → RegEx) (parts : List Part) (string : Str) (pos : Int) : Prop :=
  (∀ m, search re parts string pos false = some m →
    ∃ p stop : Nat, getKey m "all".toList = some (p, stop) ∧ (p : Int) = pos) ∧
  ((∀ p : Nat, (p : Int) = pos → ¬ MatchesAt re string parts p) →
    search re parts string pos false = none)

/-- Where the parts match at a position that is reached by matches of the first part only, they match
at the position itself. -/
def NoneFurther (re : Str → RegEx) (parts : List Part) (string : Str) (pos : Int) : Prop :=
  ∀ start : Nat, (start : Int) = pos → ∀ p, start < p → p < string.length →
    (∀ q, start ≤ q → q < p → FirstMatches re string parts q) → MatchesAt re string parts p →
    MatchesAt re string parts start

theorem Found.all {parts : List Part} (h : Found re string parts p m) :
    ∃ stop, getKey m "all".toList = some (p, stop) := by
  obtain ⟨spans, -, hreports⟩ := h
  exact ⟨_, hreports.all⟩

theorem Found.matchesAt {parts : List Part} (h : Found re string parts p m) :
    MatchesAt re string parts p := by
  obtain ⟨spans, hspans, -⟩ := h
  exact ⟨spans, hspans⟩

theorem staysAtPos_iff (re : Str → RegEx) (parts : List Part) (string : Str) (pos : Int) :
    StaysAtPos re parts string pos ↔ NoneFurther re parts string pos := by
  cases parts with
  | nil =>
    refine iff_of_true ⟨fun m hm => (Option.some_ne_none _ hm.symm).elim, fun _ => rfl⟩ ?_
    exact fun start _ p _ _ _ _ => ⟨[], rfl⟩
  | cons first parts =>
    by_cases hout : pos < 0 ∨ pos ≥ string.length
    · have hnone : search re (first :: parts) string pos false = none := if_pos hout
      refine iff_of_true ⟨fun m hm => ?_, fun _ => hnone⟩ fun start hstart p hlt hp => by omega
      exact (Option.some_ne_none _ (hm.symm.trans hnone)).elim
    · obtain ⟨start, rfl⟩ : ∃ start : Nat, pos = start := ⟨pos.toNat, by omega⟩
      have heq : search re (first :: parts) string start false =
          searchLoop re (first :: parts) first.pattern string false start := by
        rw [search, if_neg hout, Int.toNat_natCast]
      have hloop : NextFound re string (first :: parts) start _ := searchLoop_anchored start
      rw [← heq] at hloop
      constructor
      · rintro ⟨-, hnone⟩ start' hstart p hlt hp hall hmatch
        obtain rfl : start' = start := by omega
        by_contra hnot
        rw [hnone fun q hq => (show q = start' by omega) ▸ hnot] at hloop
        exact hloop p hlt.le hp hall hmatch
      · intro hfurther
        have hat (m : Matches) (hm : search re (first :: parts) string start false = some m) :
            Found re string (first :: parts) start m := by
          rw [hm] at hloop
          obtain ⟨p, hp, hp', hfound, hall⟩ := hloop
          rcases hp.lt_or_eq with hlt | rfl
          · exact absurd (hfurther start rfl p hlt hp' (fun q hq hq' => (hall q hq hq').1)
              hfound.matchesAt) (hall start (Nat.le_refl _) hlt).2
          · exact hfound
        refine ⟨fun m hm => ?_, fun hnot => ?_⟩
        · obtain ⟨stop, hstop⟩ := (hat m hm).all
          exact ⟨start, stop, hstop, rfl⟩
        · cases hm : search re (first :: parts) string start false with
          | none => rfl
          | some m => exact absurd (hat m hm).matchesAt (hnot start rfl)

/-- A search finds nothing where the parts match nowhere, and else what matches first. -/
theorem search_leftmost (re : Str → RegEx) (first : Part) (parts : List Part) (string : Str)
    (pos : Nat) (hfirst : ∀ p stop, first.pattern.Matches re string p stop → p < stop) :
    (search re (first :: parts) string pos true = none ↔
      ∀ p, pos ≤ p → p < string.length → ¬ MatchesAt re string (first :: parts) p) ∧
    ∀ m, search re (first :: parts) string pos true = some m →
      ∃ p, pos ≤ p ∧ p < string.length ∧ Found re string (first :: parts) p m ∧
        ∀ q, pos ≤ q → q < p → ¬ MatchesAt re string (first :: parts) q := by
  rw [search]
  split
  · rename_i hout
    refine ⟨iff_of_true rfl fun p hp hp' => ?_, fun m hm => (Option.some_ne_none _ hm.symm).elim⟩
    omega
  · have hloop : FirstFound re string (first :: parts) pos _ := searchLoop_searching hfirst pos
    rw [Int.toNat_natCast]
    cases h : searchLoop re (first :: parts) first.pattern string true pos with
    | none =>
      rw [h] at hloop
      exact ⟨iff_of_true rfl hloop, fun m hm => (Option.some_ne_none _ hm.symm).elim⟩
    | some m =>
      rw [h] at hloop
      obtain ⟨p, hp, hp', hfound, hno⟩ := hloop
      refine ⟨iff_of_false (Option.some_ne_none m) fun hnot => ?_, fun m' hm => ?_⟩
      · obtain ⟨spans, hspans, -⟩ := hfound
        exact hnot p hp hp' ⟨spans, hspans⟩
      · obtain rfl := Option.some.inj hm
        exact ⟨p, hp, hp', hfound, hno⟩

/-- An expression that matches itself. -/
def literalRegEx (expr : Str) : RegEx where
  matchAt string pos :=
    if pos ≤ string.length ∧ expr.isPrefixOf (string.drop pos) then some (pos + expr.length) else none
  bounds := by
    intro string pos stop h
    split at h
    · rename_i hmatch
      obtain rfl := Option.some.inj h
      have hle := (List.isPrefixOf_iff_prefix.1 hmatch.2).length_le
      rw [List.length_drop] at hle
      omega
    · cases h

theorem search_leftmost_restarted : ∃ p, p < 5 ∧
    Found literalRegEx "bb(c)".toList [⟨.regEx ['b'], none⟩, ⟨.balanced .parens, none⟩] p
      [("all".toList, (1, 5))] ∧ ∀ q, q < p →
    ¬ MatchesAt literalRegEx "bb(c)".toList [⟨.regEx ['b'], none⟩, ⟨.balanced .parens, none⟩] q := by
  have hfirst : ∀ p stop, (Pattern.regEx ['b']).Matches literalRegEx "bb(c)".toList p stop →
      p < stop := by
    intro p stop h
    simp only [Pattern.Matches, literalRegEx] at h
    split at h
    · obtain rfl := Option.some.inj h
      exact Nat.lt_succ_self p
    · cases h
  obtain ⟨p, -, hp, hfound, hno⟩ := (search_leftmost literalRegEx ⟨.regEx ['b'], none⟩
    [⟨.balanced .parens, none⟩] "bb(c)".toList 0 hfirst).2 [("all".toList, (1, 5))] (by decide +kernel)
  exact ⟨p, hp, hfound, fun q hq => hno q (Nat.zero_le q) hq⟩

end NestedMatcher

end Cvise
