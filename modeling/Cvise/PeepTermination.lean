import Cvise.PeepPass
import Cvise.SerialRuns
import Cvise.TextOrder

namespace Cvise
set_option autoImplicit true

open NestedMatcher Brackets

deriving instance DecidableEq for NestedMatcher.Pattern
deriving instance DecidableEq for NestedMatcher.Part

namespace PeepPass

/-- The number of patterns of an argument. -/
def limit : PeepArg → Nat
  | .a => regexesToReplace.length
  | .b => delimitedRegexesToReplace.length
  | _ => 1

/-- `advance`, for the text that was read. -/
def advanceText (arg : PeepArg) (s : PeepState) (text : Str) : Option PeepState :=
  let s := if limit arg ≤ s.regex + 1 then { pos := s.pos + 1 }
    else { s with regex := s.regex + 1 }
  if text.length ≤ s.pos then none else some s

/-- The pass on the text of a file. An exception of `transform` counts as an error. -/
def serial (re : Str → RegEx) (arg : PeepArg) : SerialPass PeepState Str where
  transform s prog :=
    match transformText re arg prog s with
    | .ok (result, prog2) => (result, prog2)
    | .error _ => (.error, prog)
  advance := advanceText arg
  advanceOnSuccess s _ := some s

/-- How much text the expressions of the tables match at least. -/
def evidentBounds : List (String × Nat) := [
  (varnum, 1),
  ("namespace[^\x7b]*", 9), ("=\\s*", 1), (":\\s*[0-9]+\\s*;", 3), (";", 1), ("\\^=", 2),
  ("\\|=", 2), ("\\+=\\s*1", 3), ("-=\\s*1", 3), ("&=", 2), ("'.*'", 2), ("checksum = ", 11),
  ("\\+=", 2), ("-=", 2), ("\\*=", 2), ("/=", 2), ("%=", 2), ("<<=", 3), (">>=", 3), ("\\+", 1),
  ("-", 1), (":", 1), (",", 1), ("::", 2), ("!", 1), ("~", 1), ("while", 5), ("'[^']*'", 2),
  ("'[^']*',", 3), ("struct\\s*[^\x7b]*\\s*", 6), ("union\\s*[^\x7b]*\\s*", 5),
  ("enum\\s*[^\x7b]*\\s*", 4), ("if\\s*", 2),
  ("\\s*:", 1), ("goto\\s+(?:" ++ varnum ++ ");", 7), ("class", 5), ("char", 4), ("short", 5),
  ("long", 4), ("signed", 6), ("unsigned", 8), ("float", 5), ("double", 6), ("wchar_t", 7),
  ("bool", 4), ("typeof\\s+(?:" ++ varnum ++ ")", 8), ("__typeof__\\s+(?:" ++ varnum ++ ")", 12),
  ("int\\s+argc\\s*,\\s*.*\\s*\\*argv\\[\\]", 16), ("int\\s+argc\\s*,\\s*.*\\s*\\*\\s*\\*argv", 15),
  ("int[^;]*;", 4), ("for", 3), ("''", 2),
  ("(?:" ++ arith ++ ")|(?:" ++ comp ++ ")|(?:" ++ logic ++ ")|(?:" ++ bit ++ ")|->", 1),
  (":\\s*", 1), ("::\\s*", 2), ("\\s*::", 2), ("\\s*\\?\\s*", 1), ("\\s*:\\s*", 1), ("\\s*,", 1),
  (",\\s*", 1), ("^while\\s*", 5)]

/-- What is assumed of the regular expressions: these bounds, and that a word matches itself. -/
structure Evident (re : Str → RegEx) : Prop where
  length : ∀ x ∈ evidentBounds, ∀ string p stop,
    (re x.1.toList).matchAt string p = some stop → p + x.2 ≤ stop
  class_text : ∀ string p stop, (re "class".toList).matchAt string p = some stop →
    (string.drop p).take (stop - p) = "class".toList

def boundOf (expr : Str) : Nat :=
  ((evidentBounds.find? fun x => x.1.toList = expr).map Prod.snd).getD 0

def minLength : NestedMatcher.Pattern → Nat
  | .regEx expr => boundOf expr
  | .balanced _ => 2
  | .or left right => min (minLength left) (minLength right)

def partsLength (parts : List Part) : Nat := (parts.map fun part => minLength part.pattern).sum

/-- Every replacement is shorter than what it is for, but for the one of a class, and for a digit
that takes the place of a single character. -/
theorem delimited_lengths : ∀ x ∈ delimitedRegexesToReplace,
    x.2.toList.length < partsLength x.1 ∨ x.2.toList.length = 1 ∧ partsLength x.1 = 1 ∨
      x = ([rx "class"], "struct") := by
  decide +kernel

theorem regexes_lengths : ∀ x ∈ regexesToReplace, x.2.toList.length < partsLength x.1 := by
  decide +kernel

theorem replaced_without_l : ∀ x ∈ regexesToReplace ++ delimitedRegexesToReplace,
    'l' ∉ x.2.toList := by
  decide +kernel

theorem matches_length (hre : Evident re) {pattern : NestedMatcher.Pattern} {string : Str}
    (h : pattern.Matches re string p stop) : p + minLength pattern ≤ stop := by
  induction pattern with
  | regEx expr =>
    rw [minLength, boundOf]
    cases hfind : evidentBounds.find? fun x => x.1.toList = expr with
    | none => exact ((re expr).bounds string p stop h).1
    | some x =>
      have hfound := List.find?_some hfind
      have hexpr : x.1.toList = expr := of_decide_eq_true hfound
      subst hexpr
      exact hre.length x (List.mem_of_find?_eq_some hfind) string p stop h
  | balanced expr =>
    have hb : ShortestBalanced expr string p stop := h
    have hlt := hb.lt
    have hup := height_opener (start_ne_stop expr) hb.opener
    have hne : stop ≠ p + 1 := by
      rintro rfl
      have hlevel := hb.level
      omega
    show p + 2 ≤ stop
    omega
  | or left right hl hr =>
    rw [minLength]
    rcases h with h | ⟨-, h⟩
    · have hle := hl h
      omega
    · have hle := hr h
      omega

theorem chain_length (hre : Evident re) {string : Str} {parts : List Part}
    {spans : List (Nat × Nat)} (h : Chain re string parts p spans) :
    p + partsLength parts ≤ endOf p spans := by
  induction parts generalizing p spans with
  | nil =>
    obtain rfl : spans = [] := h
    exact Nat.le_refl p
  | cons part parts ih =>
    obtain ⟨stop, rest, hm, rfl, hrest⟩ := h
    have hfirst := matches_length hre hm
    have hle := ih hrest
    have hsum : partsLength (part :: parts) = minLength part.pattern + partsLength parts := by
      rw [partsLength, List.map_cons, List.sum_cons]
      rfl
    rw [hsum, endOf_cons]
    show p + (minLength part.pattern + partsLength parts) ≤ endOf stop rest
    omega

theorem chain_append {string : Str} {parts parts' : List Part} {spans : List (Nat × Nat)}
    (h : Chain re string (parts ++ parts') p spans) :
    ∃ spans₁ spans₂, spans = spans₁ ++ spans₂ ∧ spans₁.length = parts.length ∧
      Chain re string parts p spans₁ ∧
        Chain re string parts' (endOf p spans₁) spans₂ := by
  induction parts generalizing p spans with
  | nil => exact ⟨[], spans, rfl, rfl, rfl, h⟩
  | cons part parts ih =>
    obtain ⟨stop, rest, hm, rfl, hrest⟩ := h
    obtain ⟨spans₁, spans₂, rfl, hlen, hchain, hchain'⟩ := ih hrest
    refine ⟨(p, stop) :: spans₁, spans₂, rfl, congrArg Nat.succ hlen,
      ⟨stop, spans₁, hm, rfl, hchain⟩, ?_⟩
    rw [endOf_cons]
    exact hchain'

theorem endOf_le {string : Str} {parts : List Part} {spans : List (Nat × Nat)}
    (h : Chain re string parts p spans) (hp : p ≤ string.length) :
    endOf p spans ≤ string.length := by
  induction parts generalizing p spans with
  | nil =>
    obtain rfl : spans = [] := h
    exact hp
  | cons part parts ih =>
    obtain ⟨stop, rest, hm, rfl, hrest⟩ := h
    rw [endOf_cons]
    exact ih hrest hm.bounds.2

/-- A name that only the last part has stands for the span of that part. -/
theorem getKey_last {parts : List Part} {last : Part} {spans : List (Nat × Nat)}
    (h : Reports (parts ++ [last]) (spans ++ [span]) p m) (hlen : spans.length = parts.length)
    (hname : name ≠ "all".toList) (hlast : last.name = some name) :
    getKey m name = some span := by
  rw [h.named name hname, List.zip_append hlen.symm, List.reverse_append]
  simp [hlast]

/-- Removes text: what is left is a part of it, in order. -/
theorem removeFrom_sublist (r : RegEx) (string : Str) (pos : Nat) :
    (r.removeFrom string pos).Sublist (string.drop pos) := by
  induction pos using RegEx.removeFrom.induct r string with
  | case1 pos hlt stop hm hstop ih =>
    rw [RegEx.removeFrom, dif_pos hlt, hm]
    simp only [if_pos hstop]
    refine ih.trans ?_
    have hdrop : string.drop stop = (string.drop pos).drop (stop - pos) := by
      rw [List.drop_drop]
      congr 1
      omega
    rw [hdrop]
    exact List.drop_sublist _ _
  | case2 pos hlt stop hm hstop ih =>
    rw [RegEx.removeFrom, dif_pos hlt, hm]
    simp only [if_neg hstop]
    rw [List.drop_eq_getElem_cons hlt]
    exact ih.cons_cons _
  | case3 pos hlt hm ih =>
    rw [RegEx.removeFrom, dif_pos hlt, hm, List.drop_eq_getElem_cons hlt]
    exact ih.cons_cons _
  | case4 pos hlt =>
    rw [RegEx.removeFrom, dif_neg hlt]
    exact List.nil_sublist _

/-- One for the letter that only a class has. -/
def isL (c : Char) : Nat := if c = 'l' then 1 else 0

/-- How a replacement changes what it is for, where `put` is the text of the pattern. -/
inductive Smaller (put text : Str) : Str → Prop
  | shorter (hlen : text.length < removed.length)
      (hl : weightOf isL text ≤ weightOf isL removed) : Smaller put text removed
  | digit (hlen : removed.length = 1) (htext : text.length = 1) (hput : text = put)
      (hl : weightOf isL text = 0) : Smaller put text removed
  | ofClass (htext : text = "struct".toList) : Smaller put text "class".toList

/-- What a state replaces, with the text that it removes. -/
structure Replacement.Replaces (r : Replacement) (put prog removed : Str) : Prop where
  split : prog = prog.take r.replaced.1 ++ (removed ++ prog.drop r.replaced.2)
  smaller : Smaller put r.text removed

theorem weightOf_eq_zero_of_not_mem {text : Str} (h : 'l' ∉ text) : weightOf isL text = 0 :=
  weightOf_eq_zero fun c hc => if_neg fun he : c = 'l' => h (he ▸ hc)

theorem split_at (prog : Str) {a b : Nat} (hab : a ≤ b) :
    prog = prog.take a ++ ((prog.drop a).take (b - a) ++ prog.drop b) := by
  have hdrop : prog.drop b = (prog.drop a).drop (b - a) := by
    rw [List.drop_drop]
    congr 1
    omega
  rw [hdrop, List.take_append_drop, List.take_append_drop]

theorem length_cut (prog : Str) {a b : Nat} (hb : b ≤ prog.length) :
    ((prog.drop a).take (b - a)).length = b - a := by
  rw [List.length_take, List.length_drop]
  omega

theorem replaces_all {prog put text : Str} (hp : p ≤ stop) (hstop : stop ≤ prog.length)
    (hlen : text.length < stop - p)
    (hl : weightOf isL text ≤ weightOf isL ((prog.drop p).take (stop - p))) :
    Replacement.Replaces ⟨found, (p, stop), text⟩ put prog ((prog.drop p).take (stop - p)) :=
  ⟨split_at prog hp, .shorter (by rw [length_cut prog hstop]; exact hlen) hl⟩

theorem replaces_a (hre : Evident re) (hitem : item ∈ regexesToReplace)
    (hfound : Found re prog item.1 p m) (hp : p < prog.length)
    (h : replacementOf re .a prog item.2 m = .ok r) :
    ∃ removed, r.Replaces item.2.toList prog removed := by
  obtain ⟨spans, hchain, hreports⟩ := hfound
  rw [replacementOf, except_bind_ok] at h
  obtain ⟨all, hall, h⟩ := h
  obtain rfl : all = (p, endOf p spans) :=
    Option.some.inj ((lookupKey_ok.1 hall).symm.trans hreports.all)
  obtain rfl := Except.ok.inj h
  have hlen := chain_length hre hchain
  have hlt := regexes_lengths item hitem
  refine ⟨_, replaces_all (by omega) (endOf_le hchain hp.le) (by omega) ?_⟩
  rw [weightOf_eq_zero_of_not_mem (replaced_without_l item (List.mem_append_left _ hitem))]
  exact Nat.zero_le _

theorem replaces_b (hre : Evident re) (hitem : item ∈ delimitedRegexesToReplace)
    (hfound : Found re prog (delimiter front "delim1" :: item.1 ++ [delimiter back "delim2"]) p m)
    (h : replacementOf re .b prog item.2 m = .ok r) :
    ∃ removed, r.Replaces item.2.toList prog removed := by
  obtain ⟨spans, hchain, hreports⟩ := hfound
  obtain ⟨spans', last, rfl, hlen', hchain', hlast⟩ := chain_append hchain
  obtain ⟨stop, inner, hm, rfl, hinner⟩ := hchain'
  obtain ⟨stop', rest, hm', rfl, hrest⟩ := hlast
  obtain rfl : rest = [] := hrest
  rw [endOf_cons] at hm' hreports
  obtain ⟨all, -, h⟩ := except_bind_ok.1 h
  obtain ⟨delim1, hdelim1, h⟩ := except_bind_ok.1 h
  obtain ⟨delim2, hdelim2, h⟩ := except_bind_ok.1 h
  obtain rfl := Except.ok.inj h
  have hunnamed := delimited_unnamed item hitem
  have hothers : ∀ part ∈ item.1 ++ [delimiter back "delim2"],
      part.name ≠ some "delim1".toList := by
    intro part hpart
    rcases List.mem_append.1 hpart with hpart | hpart
    · rw [hunnamed part hpart]
      exact (Option.some_ne_none _).symm
    · rw [List.mem_singleton.1 hpart]
      exact fun hname => absurd (Option.some.inj hname) (by decide)
  obtain rfl : delim1 = (p, stop) := Option.some.inj ((lookupKey_ok.1 hdelim1).symm.trans
    (getKey_first hreports (by decide) rfl hothers))
  have hlast' := getKey_last hreports hlen' (by decide) rfl
  obtain rfl : delim2 = (endOf stop inner, stop') :=
    Option.some.inj ((lookupKey_ok.1 hdelim2).symm.trans hlast')
  have hlen := chain_length hre hinner
  have hstop := hm'.bounds
  have hl := weightOf_eq_zero_of_not_mem (replaced_without_l item (List.mem_append_right _ hitem))
  have hend : endOf stop inner ≤ prog.length := hstop.1.trans hstop.2
  have hle : stop ≤ endOf stop inner := by omega
  have hremoved := length_cut (a := stop) prog hend
  refine ⟨_, split_at prog hle, ?_⟩
  rcases delimited_lengths item hitem with hlt | ⟨hone, hpart⟩ | rfl
  · refine .shorter ?_ (hl ▸ Nat.zero_le _)
    rw [hremoved]
    exact hlt.trans_le (by omega)
  · rcases Nat.eq_or_lt_of_le (by omega : 1 ≤ endOf stop inner - stop) with he | hlt
    · exact .digit (hremoved.trans he.symm) hone rfl hl
    · refine .shorter ?_ (hl ▸ Nat.zero_le _)
      rw [hremoved]
      exact hone.trans_lt hlt
  · obtain ⟨stop₁, rest, hclass, rfl, hrest⟩ := hinner
    obtain rfl : rest = [] := hrest
    show Smaller _ "struct".toList ((prog.drop stop).take (stop₁ - stop))
    rw [hre.class_text prog stop stop₁ hclass]
    exact .ofClass rfl

theorem replaces_c {put : Str} (hre : Evident re) (hfound : Found re prog loopParts p m)
    (h : replacementOf re .c prog replace m = .ok r) :
    ∃ removed, r.Replaces put prog removed := by
  obtain ⟨spans, hchain, hreports⟩ := hfound
  have hlen := chain_length hre hchain
  obtain ⟨stop₁, rest, hm₁, rfl, hrest⟩ := hchain
  obtain ⟨stop₂, rest, hm₂, rfl, hrest⟩ := hrest
  obtain ⟨stop₃, rest, hm₃, rfl, hrest⟩ := hrest
  obtain ⟨stop₄, rest, hm₄, rfl, hrest⟩ := hrest
  obtain rfl : rest = [] := hrest
  obtain ⟨all, hall, h⟩ := except_bind_ok.1 h
  obtain ⟨body, hbody, h⟩ := except_bind_ok.1 h
  obtain rfl := Except.ok.inj h
  obtain rfl : all = (p, stop₄) :=
    Option.some.inj ((lookupKey_ok.1 hall).symm.trans hreports.all)
  have hreports' : Reports
      ([rx "^while\\s*", balancedPart .parens, rx "\\s*"] ++
        [⟨.balanced .curlies, some "body".toList⟩])
      ([(p, stop₁), (stop₁, stop₂), (stop₂, stop₃)] ++ [(stop₃, stop₄)]) p m := hreports
  have hlast := getKey_last hreports' rfl (by decide) rfl
  obtain rfl : body = (stop₃, stop₄) :=
    Option.some.inj ((lookupKey_ok.1 hbody).symm.trans hlast)
  have hwhile := matches_length hre hm₁
  have hwhile' : p + 5 ≤ stop₁ := hwhile
  have h₂ := hm₂.bounds
  have h₃ := hm₃.bounds
  have h₄ := hm₄.bounds
  have hsub := removeFrom_sublist (re "break\\s*;".toList) ((prog.take stop₄).drop stop₃) 0
  have hcut : (prog.take stop₄).drop stop₃ =
      ((prog.drop p).take (stop₄ - p)).drop (stop₃ - p) := by
    rw [← List.drop_take, List.drop_drop]
    congr 1
    omega
  refine ⟨_, replaces_all (by omega) h₄.2 ?_ ?_⟩
  · have hle := hsub.length_le
    rw [List.drop_zero, List.length_drop, List.length_take] at hle
    exact hle.trans_lt (by omega)
  · refine (weightOf_sublist hsub).trans (weightOf_sublist ?_)
    rw [List.drop_zero, hcut]
    exact List.drop_sublist _ _

/-- The text that the pattern of a state puts in. -/
def replaceText (arg : PeepArg) (s : PeepState) : Str :=
  match searchedParts arg [] s with
  | .ok (_, replace) => replace.toList
  | .error _ => []

/-- What a state replaces shrinks the text in one of these ways. -/
theorem replacement_replaces (hre : Evident re) (harg : arg ≠ .other)
    (h : replacement re arg prog s = .ok (some r)) :
    ∃ removed, r.Replaces (replaceText arg s) prog removed := by
  rw [replacement, except_bind_ok] at h
  obtain ⟨⟨parts, replace⟩, hparts, h⟩ := h
  simp only at h
  cases hm : search re parts prog s.pos false with
  | none =>
    rw [hm] at h
    cases h
  | some m =>
    rw [hm] at h
    obtain ⟨p, -, hp, hfound⟩ := search_found hm
    cases hr : replacementOf re arg prog replace m with
    | error e =>
      simp only [hr] at h
      cases h
    | ok r' =>
      simp only [hr] at h
      obtain rfl := Option.some.inj (Except.ok.inj h)
      cases arg with
      | a =>
        rw [searchedParts] at hparts
        cases hitem : regexesToReplace[s.regex]? with
        | none =>
          rw [hitem] at hparts
          cases hparts
        | some item =>
          rw [hitem] at hparts
          obtain rfl : item = (parts, replace) := Except.ok.inj hparts
          rw [replaceText, searchedParts, hitem]
          exact replaces_a hre (List.mem_of_getElem? hitem) hfound hp hr
      | b =>
        rw [searchedParts] at hparts
        cases hitem : delimitedRegexesToReplace[s.regex]? with
        | none =>
          rw [hitem] at hparts
          cases hparts
        | some item =>
          rw [hitem] at hparts
          obtain ⟨rfl, rfl⟩ := Prod.mk.inj (Except.ok.inj hparts)
          rw [replaceText, searchedParts, hitem]
          exact replaces_b hre (List.mem_of_getElem? hitem) hfound hr
      | c =>
        obtain ⟨rfl, -⟩ := Prod.mk.inj (Except.ok.inj hparts)
        exact replaces_c hre hfound hr
      | other => exact absurd rfl harg

/-- One for the letters that are not in a text. -/
def notIn (text : Str) (c : Char) : Nat := if c ∈ text then 0 else 1

/-- What a success does to the text: it loses a letter of a class or gets shorter, or a character
less is not the one that the state puts in. -/
structure Success (put prog prog2 : Str) : Prop where
  bound : weightOf isL prog2 + prog2.length ≤ weightOf isL prog + prog.length
  smaller : weightOf isL prog2 < weightOf isL prog ∨ weightOf isL prog2 ≤ weightOf isL prog ∧
    (prog2.length < prog.length ∨ prog2.length ≤ prog.length ∧
      weightOf (notIn put) prog2 < weightOf (notIn put) prog)

theorem Replacement.Replaces.success {r : Replacement} {put removed : Str}
    (h : r.Replaces put prog removed)
    (hne : prog ≠ prog.take r.replaced.1 ++ r.text ++ prog.drop r.replaced.2) :
    Success put prog (prog.take r.replaced.1 ++ r.text ++ prog.drop r.replaced.2) := by
  obtain ⟨hsplit, hsmaller⟩ := h
  generalize prog.take r.replaced.1 = front at hsplit hne ⊢
  generalize prog.drop r.replaced.2 = back at hsplit hne ⊢
  generalize r.text = text at hsmaller hne ⊢
  subst hsplit
  have hweight (w : Char → Nat) : weightOf w (front ++ text ++ back) =
      weightOf w front + weightOf w text + weightOf w back := by
    rw [weightOf_append, weightOf_append]
  have hweight' (w : Char → Nat) : weightOf w (front ++ (removed ++ back)) =
      weightOf w front + (weightOf w removed + weightOf w back) := by
    rw [weightOf_append, weightOf_append]
  have hlength : (front ++ text ++ back).length = front.length + text.length + back.length := by
    rw [List.length_append, List.length_append]
  have hlength' : (front ++ (removed ++ back)).length =
      front.length + (removed.length + back.length) := by
    rw [List.length_append, List.length_append]
  cases hsmaller with
  | shorter hlen hl =>
    constructor
    · rw [hweight, hweight', hlength, hlength']
      omega
    · refine .inr ⟨?_, .inl ?_⟩
      · rw [hweight, hweight']
        omega
      · rw [hlength, hlength']
        omega
  | digit hlen htext hput hl =>
    subst hput
    obtain ⟨c, rfl⟩ := List.length_eq_one_iff.1 hlen
    obtain ⟨d, rfl⟩ := List.length_eq_one_iff.1 htext
    have hcd : c ≠ d := by
      rintro rfl
      exact hne (by rw [List.append_assoc])
    have hd : weightOf (notIn [d]) [d] = 0 :=
      weightOf_eq_zero fun _ ha => if_pos ha
    have hc : weightOf (notIn [d]) [c] = 1 := by
      rw [weightOf_cons, notIn, if_neg fun hmem => hcd (List.mem_singleton.1 hmem)]
      rfl
    constructor
    · rw [hweight, hweight', hlength, hlength', hl]
      omega
    · refine .inr ⟨?_, .inr ⟨?_, ?_⟩⟩
      · rw [hweight, hweight', hl]
        omega
      · rw [hlength, hlength']
        omega
      · rw [hweight, hweight', hd, hc]
        omega
  | ofClass htext =>
    subst htext
    have hstruct : weightOf isL "struct".toList = 0 := by decide
    have hclass : weightOf isL "class".toList = 1 := by decide
    have hlens : "struct".toList.length = 6 ∧ "class".toList.length = 5 := by decide
    constructor
    · rw [hweight, hweight', hlength, hlength', hstruct, hclass, hlens.1, hlens.2]
      omega
    · refine .inl ?_
      rw [hweight, hweight', hstruct, hclass]
      omega

theorem transformText_success (hre : Evident re) (harg : arg ≠ .other)
    (h : transformText re arg prog s = .ok (.ok, prog2)) :
    Success (replaceText arg s) prog prog2 := by
  rw [transformText] at h
  split at h
  · cases h
  · obtain ⟨r, hr, h⟩ := except_bind_ok.1 h
    cases r with
    | none => cases h
    | some r =>
      obtain ⟨removed, hreplaces⟩ := replacement_replaces hre harg hr
      simp only at h
      split at h
      · cases h
      · rename_i hne
        obtain ⟨-, rfl⟩ := Prod.mk.inj (Except.ok.inj h)
        exact hreplaces.success hne

/-- Where a state stands in the order in which they are tried. -/
def rank (arg : PeepArg) (s : PeepState) : Nat := s.pos * limit arg + s.regex

theorem advanceText_rank (hs : s.regex < limit arg) (h : advanceText arg s text = some s') :
    s'.regex < limit arg ∧ rank arg s < rank arg s' ∧
      rank arg s' < text.length * limit arg := by
  rw [advanceText] at h
  split at h
  · rename_i hlast
    split at h
    · cases h
    · rename_i hlt
      obtain rfl := Option.some.inj h
      have hmul := Nat.mul_le_mul_right (limit arg) (Nat.not_le.1 hlt)
      rw [Nat.succ_mul] at hmul
      rw [rank, rank, Nat.add_mul]
      dsimp only at hmul ⊢
      rw [Nat.add_mul] at hmul
      omega
  · rename_i hlast
    split at h
    · cases h
    · rename_i hlt
      obtain rfl := Option.some.inj h
      have hmul := Nat.mul_le_mul_right (limit arg) (Nat.not_le.1 hlt)
      rw [Nat.succ_mul] at hmul
      rw [rank, rank]
      dsimp only at hmul ⊢
      omega

/-- The states that are left, and what the successes of one state can still do. -/
def measure (arg : PeepArg) (c : PeepState × Str) : Nat × Nat × Nat × Nat :=
  ((weightOf isL c.2 + c.2.length) * limit arg - rank arg c.1, weightOf isL c.2, c.2.length,
    weightOf (notIn (replaceText arg c.1)) c.2)

theorem lex_of_le {r : β → β → Prop} {a b : Nat} {x y : β} (h : a ≤ b) (hr : r x y) :
    Prod.Lex (· < ·) r (a, x) (b, y) := by
  rcases Nat.lt_or_eq_of_le h with hlt | rfl
  · exact .left _ _ hlt
  · exact .right _ hr

theorem Success.lex {put : Str} (h : Success put prog prog2) :
    Prod.Lex (· < ·) (Prod.Lex (· < ·) (· < ·))
      (weightOf isL prog2, prog2.length, weightOf (notIn put) prog2)
      (weightOf isL prog, prog.length, weightOf (notIn put) prog) := by
  rcases h.smaller with hlt | ⟨hle, hlt | ⟨hle', hlt⟩⟩
  · exact .left _ _ hlt
  · exact lex_of_le hle (.left _ _ hlt)
  · exact lex_of_le hle (lex_of_le hle' hlt)

/-- The order in which the runs go down. -/
def Below (m m' : Nat × Nat × Nat × Nat) : Prop :=
  Prod.Lex (· < ·) (Prod.Lex (· < ·) (Prod.Lex (· < ·) (· < ·))) m m'

theorem below_wf : WellFounded Below :=
  .prod_lex Nat.lt_wfRel.wf (.prod_lex Nat.lt_wfRel.wf (.prod_lex Nat.lt_wfRel.wf Nat.lt_wfRel.wf))

theorem serial_ok (h : (serial re arg).transform s prog = (.ok, prog2)) :
    transformText re arg prog s = .ok (.ok, prog2) := by
  have hout : (match transformText re arg prog s with
    | .ok (result, prog2) => (result, prog2)
    | .error _ => (PassResult.error, prog)) = (.ok, prog2) := h
  cases ht : transformText re arg prog s with
  | error e =>
    rw [ht] at hout
    cases hout
  | ok out =>
    rw [ht] at hout
    exact congrArg Except.ok hout

/-- The pass ends on every text, whatever the tests say. -/
theorem peep_ends (hre : Evident re) (harg : arg ≠ .other) (prog : Str) :
    (serial re arg).Ends ({}, prog) := by
  have hstep : ∀ success (c c' : PeepState × Str), c.1.regex < limit arg →
      (serial re arg).step success c = some c' →
        c'.1.regex < limit arg ∧ InvImage Below (measure arg) c' c := by
    intro success c c' hs h
    obtain ⟨s, text⟩ := c
    obtain ⟨s', text'⟩ := c'
    rcases SerialPass.step_cases h with ⟨-, hadvance, hsame⟩ | ⟨hok, -, hstay⟩
    · obtain rfl : text' = text := hsame
      have hadvance' : advanceText arg s text' = some s' := hadvance
      obtain ⟨hs', hlt, hbound⟩ := advanceText_rank hs hadvance'
      have hmul : text'.length * limit arg ≤
          (weightOf isL text' + text'.length) * limit arg :=
        Nat.mul_le_mul_right _ (Nat.le_add_left _ _)
      exact ⟨hs', .left _ _ (Nat.sub_lt_sub_left (hlt.trans (hbound.trans_le hmul)) hlt)⟩
    · obtain rfl : s = s' := Option.some.inj hstay
      have hsuccess := transformText_success hre harg (serial_ok hok)
      refine ⟨hs, lex_of_le ?_ hsuccess.lex⟩
      exact Nat.sub_le_sub_right (Nat.mul_le_mul_right _ hsuccess.bound) _
  have hpos : 0 < limit arg := by
    cases arg with
    | a => decide
    | b => decide
    | c => decide
    | other => decide
  exact SerialPass.ends_of_wellFounded (InvImage.wf (measure arg) below_wf) hstep hpos

theorem literal_evident : Evident literalRegEx := by
  have hbounds : ∀ x ∈ evidentBounds, x.2 ≤ x.1.toList.length := by decide +kernel
  constructor
  · intro x hx string p stop h
    have hle := hbounds x hx
    rw [literalRegEx] at h
    dsimp only at h
    split at h
    · obtain rfl := Option.some.inj h
      omega
    · cases h
  · intro string p stop h
    rw [literalRegEx] at h
    dsimp only at h
    split at h
    · rename_i hmatch
      obtain rfl := Option.some.inj h
      rw [Nat.add_sub_cancel_left]
      exact (List.prefix_iff_eq_take.1 (List.isPrefixOf_iff_prefix.1 hmatch.2)).symm
    · cases h

theorem peep_ends_semicolon : (serial literalRegEx .a).Ends ({}, ";".toList) :=
  peep_ends literal_evident (by decide) _

end PeepPass

end Cvise
