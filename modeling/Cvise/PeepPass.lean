import Cvise.NestedSearch
import Cvise.SubtractHints
import Cvise.TextErrors

namespace Cvise
set_option autoImplicit true

open NestedMatcher

/-- Replaces what a regular expression matches by nothing, from left to right: `re.sub(expr, '', s)`. -/
def RegEx.removeFrom (r : RegEx) (string : Str) (pos : Nat) : Str :=
  if _ : pos < string.length then
    match r.matchAt string pos with
    | some stop =>
      if pos < stop then r.removeFrom string stop
      else string[pos] :: r.removeFrom string (pos + 1)
    | none => string[pos] :: r.removeFrom string (pos + 1)
  else []
termination_by string.length - pos

namespace PeepPass

def rx (expr : String) : Part := ⟨.regEx expr.toList, none⟩

def balancedPart (expr : NestedMatcher.BalancedExpr) : Part := ⟨.balanced expr, none⟩

def border : String := "[*\x7b([:,\x7d)\\];]"
def borderOrSpace : String := "(?:(?:" ++ border ++ ")|\\s)"
def borderOrSpaceOptional : String := "(?:(?:" ++ border ++ ")|\\s)?"

def varnum : String := "(?:[-+]?[0-9a-zA-Z\\_]+)"
def varnumexpPattern : Part := ⟨.or (.regEx varnum.toList) (.balanced .parens), none⟩

def callParts : List Part := [rx varnum, rx "\\s*", balancedPart .parens]

def field : String := "\\.(?:" ++ varnum ++ ")"
def index : String := "\\[(?:" ++ varnum ++ ")\\]"
def fullvar : List Part :=
  [rx "[&*]*", varnumexpPattern, rx ("(?:(?:" ++ field ++ ")|(?:" ++ index ++ "))*")]
def arith : String := "\\+|-|%|/|\\*"
def comp : String := "<=|>=|<|>|==|!=|="
def logic : String := "&&|\\|\\|"
def bit : String := "\\||&|\\^|<<|>>"
def binop : List Part :=
  [rx ("(?:" ++ arith ++ ")|(?:" ++ comp ++ ")|(?:" ++ logic ++ ")|(?:" ++ bit ++ ")|->")]

def regexesToReplace : List (List Part × String) := [
  ([balancedPart .angles], ""),
  ([balancedPart .parens], ""),
  ([balancedPart .curlies], ""),
  ([rx "namespace[^\x7b]*", balancedPart .curlies], ""),
  ([rx "=\\s*", balancedPart .curlies], ""),
  ([rx ":\\s*[0-9]+\\s*;"], ";"),
  ([rx ";"], ""),
  ([rx "\\^="], "="),
  ([rx "\\|="], "="),
  ([rx "\\+=\\s*1"], "++"),
  ([rx "-=\\s*1"], "--"),
  ([rx "&="], "="),
  ([rx "'.*'"], ""),
  ([rx "checksum = "], ""),
  ([rx "'.*'"], ""),
  ([rx "&="], "="),
  ([rx "\\+="], "="),
  ([rx "-="], "="),
  ([rx "\\*="], "="),
  ([rx "/="], "="),
  ([rx "%="], "="),
  ([rx "<<="], "="),
  ([rx ">>="], "="),
  ([rx "\\+"], ""),
  ([rx "-"], ""),
  ([rx ":"], ""),
  ([rx ","], ""),
  ([rx "::"], ""),
  ([rx "!"], ""),
  ([rx "~"], ""),
  ([rx "while"], "if"),
  ([rx "'[^']*'"], ""),
  ([rx "'[^']*',"], ""),
  ([rx "struct\\s*[^\x7b]*\\s*", balancedPart .curlies], ""),
  ([rx "union\\s*[^\x7b]*\\s*", balancedPart .curlies], ""),
  ([rx "enum\\s*[^\x7b]*\\s*", balancedPart .curlies], ""),
  ([rx "if\\s*", balancedPart .parens], "")]

def subexprs : List (List Part) := [
  fullvar ++ [rx "\\s*"] ++ binop ++ [rx "\\s*"] ++ fullvar,
  fullvar ++ [rx "\\s*"] ++ binop,
  binop ++ [rx "\\s*"] ++ fullvar,
  fullvar,
  rx ":\\s*" :: fullvar,
  rx "::\\s*" :: fullvar,
  fullvar ++ [rx "\\s*:"],
  fullvar ++ [rx "\\s*::"],
  fullvar ++ [rx "\\s*\\?\\s*"] ++ fullvar ++ [rx "\\s*:\\s*"] ++ fullvar]

/-- These match when preceded and followed by `borderOrSpace`. -/
def delimitedRegexesToReplace : List (List Part × String) := [
  ([varnumexpPattern, rx "\\s*:"], ""),
  ([varnumexpPattern, rx "\\s*:"], ""),
  ([rx ("goto\\s+(?:" ++ varnum ++ ");")], ""),
  ([rx "class"], "struct"),
  ([rx "char"], "int"),
  ([rx "short"], "int"),
  ([rx "long"], "int"),
  ([rx "signed"], "int"),
  ([rx "unsigned"], "int"),
  ([rx "float"], "int"),
  ([rx "double"], "int"),
  ([rx "wchar_t"], "int"),
  ([rx "bool"], "int"),
  ([rx ("typeof\\s+(?:" ++ varnum ++ ")")], "int"),
  ([rx ("__typeof__\\s+(?:" ++ varnum ++ ")")], "int"),
  ([rx "int\\s+argc\\s*,\\s*.*\\s*\\*argv\\[\\]"], "void"),
  ([rx "int\\s+argc\\s*,\\s*.*\\s*\\*\\s*\\*argv"], "void"),
  ([rx "int[^;]*;"], ""),
  ([rx "for"], ""),
  ([rx "'.*'"], ""),
  ([rx "'.*'"], ""),
  ([rx "'[^']*'"], ""),
  ([rx "'[^']*'"], ""),
  ([rx "''"], "0"),
  (callParts ++ [rx ","], "0"),
  (callParts ++ [rx ","], ""),
  (callParts, "0"),
  (callParts, "")] ++
  subexprs.flatMap fun x => [
    (x, "0"), (x, "1"), (x, ""),
    (x ++ [rx "\\s*,"], "0"), (x ++ [rx "\\s*,"], "1"), (x ++ [rx "\\s*,"], ""),
    (rx ",\\s*" :: x, "0"), (rx ",\\s*" :: x, "1"), (rx ",\\s*" :: x, "")]

inductive PeepArg where
  | a
  | b
  | c
  | other
deriving DecidableEq

/-- A part of the text with what replaces it, and the match that this is for. -/
structure Replacement where
  found : Nat × Nat
  replaced : Nat × Nat
  text : Str

/-- The pattern in front of those that are delimited, and the one behind them. -/
def delimiter (atBorder : Bool) (name : String) : Part :=
  ⟨.regEx (if atBorder then borderOrSpaceOptional else borderOrSpace).toList, some name.toList⟩

def loopParts : List Part := [rx "^while\\s*", balancedPart .parens, rx "\\s*",
  ⟨.balanced .curlies, some "body".toList⟩]

/-- What is searched for in a state, and what the match is replaced by. -/
def searchedParts (arg : PeepArg) (prog : Str) (s : PeepState) :
    Except PyErr (List Part × String) :=
  match arg with
  | .a => (regexesToReplace[s.regex]?.map Except.ok).getD (.error .indexError)
  | .b => do
    let (parts, replace) ←
      (delimitedRegexesToReplace[s.regex]?.map Except.ok).getD (.error .indexError)
    let front := delimiter (prog.head? = some ',') "delim1"
    let back := delimiter (prog.getLast? = some ',') "delim2"
    return (front :: parts ++ [back], replace)
  | .c => .ok (loopParts, "")
  | .other => .error .unknownArgumentError

/-- What a match is replaced by in each mode. -/
def replacementOf (re : Str → RegEx) (arg : PeepArg) (prog : Str) (replace : String) (m : Matches) :
    Except PyErr Replacement := do
  let all ← lookupKey m "all".toList
  match arg with
  | .b =>
    let delim1 ← lookupKey m "delim1".toList
    let delim2 ← lookupKey m "delim2".toList
    return ⟨all, (delim1.2, delim2.1), replace.toList⟩
  | .c =>
    let body ← lookupKey m "body".toList
    return ⟨all, all, (re "break\\s*;".toList).removeFrom ((prog.take body.2).drop body.1) 0⟩
  | _ => return ⟨all, all, replace.toList⟩

def replacement (re : Str → RegEx) (arg : PeepArg) (prog : Str) (s : PeepState) :
    Except PyErr (Option Replacement) := do
  let (parts, replace) ← searchedParts arg prog s
  match search re parts prog s.pos false with
  | none => return none
  | some m => some <$> replacementOf re arg prog replace m

/-- `transform`, of the text that was read. -/
def transformText (re : Str → RegEx) (arg : PeepArg) (prog : Str) (s : PeepState) :
    Except PyErr (PassResult × Str) := do
  if s.pos > prog.length then return (.stop, prog)
  else
    match ← replacement re arg prog s with
    | none => return (.invalid, prog)
    | some r =>
      let prog2 := prog.take r.replaced.1 ++ r.text ++ prog.drop r.replaced.2
      return if prog = prog2 then (.invalid, prog) else (.ok, prog2)

theorem search_found (h : search re parts string (pos : Nat) false = some m) :
    ∃ p, pos ≤ p ∧ p < string.length ∧ Found re string parts p m := by
  cases parts with
  | nil => cases h
  | cons first parts =>
    rw [search] at h
    split at h
    · cases h
    · have hloop : NextFound re string (first :: parts) pos _ := searchLoop_anchored pos
      rw [Int.toNat_natCast] at h
      rw [h] at hloop
      obtain ⟨p, hp, hp', hfound, -⟩ := hloop
      exact ⟨p, hp, hp', hfound⟩

/-- A name that only the first part has stands for the span of that part. -/
theorem getKey_first {first : Part} {parts : List Part} {spans : List (Nat × Nat)}
    (h : Reports (first :: parts) (span :: spans) p m) (hname : name ≠ "all".toList)
    (hfirst : first.name = some name) (hothers : ∀ part ∈ parts, part.name ≠ some name) :
    getKey m name = some span := by
  have hnone : (parts.zip spans).reverse.find? (fun x => x.1.name = some name) = none := by
    refine List.find?_eq_none.2 fun x hx hdec => ?_
    exact hothers x.1 (List.of_mem_zip (List.mem_reverse.1 hx)).1 (of_decide_eq_true hdec)
  rw [h.named name hname, List.zip_cons_cons, List.reverse_cons, List.find?_append, hnone,
    Option.none_or, List.find?_cons_of_pos (by simp [hfirst])]
  rfl

theorem delimited_unnamed : ∀ x ∈ delimitedRegexesToReplace, ∀ part ∈ x.1, part.name = none := by
  decide +kernel

/-- The replacement starts at a position; with delimiters, behind the one that is there. -/
def Replacement.StartsAt (re : Str → RegEx) (arg : PeepArg) (prog : Str) (pos : Nat)
    (r : Replacement) : Prop :=
  r.found.1 = pos ∧ match arg with
    | .b => (delimiter (prog.head? = some ',') "delim1").pattern.Matches re prog pos r.replaced.1
    | _ => r.replaced.1 = pos

theorem searchedParts_b (h : searchedParts .b prog s = .ok (parts, replace)) :
    ∃ ps, (∀ part ∈ ps, part.name = none) ∧ parts =
      delimiter (prog.head? = some ',') "delim1" :: ps ++
        [delimiter (prog.getLast? = some ',') "delim2"] := by
  rw [searchedParts] at h
  cases hitem : delimitedRegexesToReplace[s.regex]? with
  | none =>
    rw [hitem] at h
    cases h
  | some item =>
    rw [hitem] at h
    obtain ⟨rfl, -⟩ := Prod.mk.inj (Except.ok.inj h)
    exact ⟨item.1, delimited_unnamed item (List.mem_of_getElem? hitem), rfl⟩

theorem replacementOf_starts (hparts : searchedParts arg prog s = .ok (parts, replace))
    (hfound : Found re prog parts p m) (h : replacementOf re arg prog replace m = .ok r) :
    r.StartsAt re arg prog p := by
  obtain ⟨spans, hchain, hreports⟩ := hfound
  rw [replacementOf, except_bind_ok] at h
  obtain ⟨all, hall, h⟩ := h
  obtain rfl : all = (p, endOf p spans) :=
    Option.some.inj ((lookupKey_ok.1 hall).symm.trans hreports.all)
  cases arg with
  | a =>
    obtain rfl := Except.ok.inj h
    exact ⟨rfl, rfl⟩
  | b =>
    obtain ⟨ps, hunnamed, rfl⟩ := searchedParts_b hparts
    obtain ⟨stop, rest, hm, rfl, -⟩ := hchain
    obtain ⟨delim1, hdelim1, h⟩ := except_bind_ok.1 h
    obtain ⟨delim2, -, h⟩ := except_bind_ok.1 h
    obtain rfl := Except.ok.inj h
    have hothers : ∀ part ∈ ps ++ [delimiter (prog.getLast? = some ',') "delim2"],
        part.name ≠ some "delim1".toList := by
      intro part hpart
      rcases List.mem_append.1 hpart with hpart | hpart
      · rw [hunnamed part hpart]
        exact (Option.some_ne_none _).symm
      · rw [List.mem_singleton.1 hpart]
        exact fun hname => absurd (Option.some.inj hname) (by decide)
    have hspan := getKey_first hreports (by decide) rfl hothers
    obtain rfl : delim1 = (p, stop) := Option.some.inj ((lookupKey_ok.1 hdelim1).symm.trans hspan)
    exact ⟨rfl, hm⟩
  | c =>
    obtain ⟨body, -, h⟩ := except_bind_ok.1 h
    obtain rfl := Except.ok.inj h
    exact ⟨rfl, rfl⟩
  | other =>
    obtain rfl := Except.ok.inj h
    exact ⟨rfl, rfl⟩

theorem Replacement.StartsAt.bounds (h : Replacement.StartsAt re arg prog p r)
    (hp : p ≤ prog.length) : p ≤ r.replaced.1 ∧ r.replaced.1 ≤ prog.length := by
  cases arg with
  | b => exact Pattern.Matches.bounds h.2
  | a => exact ⟨h.2.ge, h.2.le.trans hp⟩
  | c => exact ⟨h.2.ge, h.2.le.trans hp⟩
  | other => exact ⟨h.2.ge, h.2.le.trans hp⟩

/-- What a state replaces starts where its match begins, which is not before its position. -/
theorem replacement_starts (h : replacement re arg prog s = .ok (some r)) :
    ∃ parts replace m p, searchedParts arg prog s = .ok (parts, replace) ∧
      search re parts prog s.pos false = some m ∧ Found re prog parts p m ∧ s.pos ≤ p ∧
      p < prog.length ∧ r.StartsAt re arg prog p := by
  rw [replacement, except_bind_ok] at h
  obtain ⟨⟨parts, replace⟩, hparts, h⟩ := h
  simp only at h
  cases hm : search re parts prog s.pos false with
  | none =>
    rw [hm] at h
    cases h
  | some m =>
    rw [hm] at h
    obtain ⟨p, hp, hp', hfound⟩ := search_found hm
    cases hr : replacementOf re arg prog replace m with
    | error e =>
      simp only [hr] at h
      cases h
    | ok r' =>
      simp only [hr] at h
      obtain rfl := Option.some.inj (Except.ok.inj h)
      exact ⟨parts, replace, m, p, hparts, hm, hfound, hp, hp', replacementOf_starts hparts hfound hr⟩

theorem transformText_frame (h : transformText re arg prog s = .ok (result, prog2)) :
    prog2.take s.pos = prog.take s.pos := by
  rw [transformText] at h
  split at h
  · cases h
    rfl
  · obtain ⟨r, hr, h⟩ := except_bind_ok.1 h
    cases r with
    | none =>
      cases h
      rfl
    | some r =>
      obtain ⟨parts, replace, m, p, -, -, -, hp, hp', hstarts⟩ := replacement_starts hr
      have hbounds := hstarts.bounds hp'.le
      have htake : (prog.take r.replaced.1 ++ r.text ++ prog.drop r.replaced.2).take s.pos =
          prog.take s.pos := by
        rw [List.append_assoc, List.take_append_of_le_length, List.take_take,
          Nat.min_eq_left (hp.trans hbounds.1)]
        rw [List.length_take]
        omega
      simp only at h
      split at h
      · cases h
        rfl
      · cases h
        exact htake

/-- Anchored matching stays at its position exactly where no later start is reached by matches of the
first part. The pass never changes what is before the position, and what it replaces starts at the
position under the same condition. -/
theorem anchored_search (re : Str → RegEx) :
    (∀ parts string pos, StaysAtPos re parts string pos ↔ NoneFurther re parts string pos) ∧
    ∀ arg prog s result prog2, transformText re arg prog s = .ok (result, prog2) →
      prog2.take s.pos = prog.take s.pos ∧
      ∀ parts replace, searchedParts arg prog s = .ok (parts, replace) →
        NoneFurther re parts prog s.pos →
        ∀ r, replacement re arg prog s = .ok (some r) → r.StartsAt re arg prog s.pos := by
  refine ⟨fun parts string pos => staysAtPos_iff re parts string pos, ?_⟩
  intro arg prog s result prog2 h
  refine ⟨transformText_frame h, fun parts replace hparts hfurther r hr => ?_⟩
  obtain ⟨parts', replace', m, p, hparts', hm, hfound, -, -, hstarts⟩ := replacement_starts hr
  obtain ⟨rfl, rfl⟩ := Prod.mk.inj (Except.ok.inj (hparts.symm.trans hparts'))
  obtain ⟨q, stop, hall, hq⟩ := ((staysAtPos_iff re parts prog s.pos).2 hfurther).1 m hm
  obtain ⟨stop', hall'⟩ := hfound.all
  have hp : p = q := (Prod.mk.inj (Option.some.inj (hall'.symm.trans hall))).1
  have hpos : p = s.pos := by omega
  exact hpos ▸ hstarts

/-- The expression of a character and the spaces behind it. -/
def spacedRegEx (c : Char) : RegEx where
  matchAt string pos :=
    if string[pos]? = some c then
      some (pos + 1 + ((string.drop (pos + 1)).takeWhile isSpace).length)
    else none
  bounds := by
    intro string pos stop h
    split at h
    · rename_i hc
      obtain rfl := Option.some.inj h
      have hlt := (List.getElem?_eq_some_iff.1 hc).1
      have hle := (List.takeWhile_sublist (p := isSpace) (l := string.drop (pos + 1))).length_le
      rw [List.length_drop] at hle
      omega
    · cases h

theorem anchored_search_semicolon :
    (StaysAtPos (fun _ => spacedRegEx ';') [rx ";"] "a;".toList 1 ↔
      NoneFurther (fun _ => spacedRegEx ';') [rx ";"] "a;".toList 1) ∧
    "a".toList.take 1 = "a;".toList.take 1 ∧
    ∀ r, replacement (fun _ => spacedRegEx ';') .a "a;".toList ⟨1, 6⟩ = .ok (some r) →
      r.StartsAt (fun _ => spacedRegEx ';') .a "a;".toList 1 := by
  obtain ⟨hsearch, hpass⟩ := anchored_search fun _ => spacedRegEx ';'
  obtain ⟨hframe, hstarts⟩ := hpass .a "a;".toList ⟨1, 6⟩ .ok "a".toList (by decide +kernel)
  refine ⟨hsearch _ _ _, hframe, hstarts [rx ";"] "" rfl ?_⟩
  intro start hstart p hp hp'
  have hone : (start : Int) = 1 := hstart
  have hlt : p < 2 := hp'
  omega

/-- The second equals sign is taken, and the first one kept. -/
theorem anchored_search_moves :
    ¬ StaysAtPos (fun _ => spacedRegEx '=') [rx "=\\s*", balancedPart .curlies]
      "==\x7b\x7d".toList 0 ∧
    transformText (fun _ => spacedRegEx '=') .a "==\x7b\x7d".toList ⟨0, 4⟩ = .ok (.ok, "=".toList) := by
  refine ⟨fun h => ?_, by decide +kernel⟩
  have hsearch : search (fun _ => spacedRegEx '=') [rx "=\\s*", balancedPart .curlies]
      "==\x7b\x7d".toList (0 : Nat) false = some [("all".toList, (1, 4))] := by decide +kernel
  obtain ⟨p, stop, hkey, hp⟩ := h.1 _ hsearch
  obtain ⟨rfl, -⟩ := Prod.mk.inj (Option.some.inj hkey)
  exact absurd hp (by decide)

end PeepPass

end Cvise
