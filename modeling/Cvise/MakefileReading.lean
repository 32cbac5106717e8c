import Cvise.TokenPlaces

namespace Cvise
set_option autoImplicit true

namespace MakefileParser

open Gapped

/-- A rule without its locations. -/
structure RuleWords where
  targets : List RelPath
  prereqs : List RelPath
  recipe : List (Bytes × List Bytes) := []
  unclassified : List Bytes := []
deriving DecidableEq

/-- A makefile without its locations. -/
structure MakefileWords where
  rules : List RuleWords := []
  unclassified : List Bytes := []
deriving DecidableEq

/-- What is left of a recipe line when only some of its arguments count. -/
def RecipeLine.words (args : RecipeLine → List TextWithLoc) (r : RecipeLine) : Bytes × List Bytes :=
  (r.program.value, (args r).map (·.value))

def Rule.words (args : RecipeLine → List TextWithLoc) (rule : Rule) : RuleWords where
  targets := rule.targets.map (·.value)
  prereqs := rule.prereqs.map (·.value)
  recipe := rule.recipe.map (RecipeLine.words args)
  unclassified := rule.unclassifiedLines.map (·.value)

def Makefile.words (args : RecipeLine → List TextWithLoc) (mk : Makefile) : MakefileWords where
  rules := mk.rules.map (Rule.words args)
  unclassified := mk.unclassifiedLines.map (·.value)

/-- `_parse_rule_line` without locations. -/
def ruleWords (line : Bytes) : Except PyErr (Option RuleWords) :=
  if line.head? = some 9 then .ok none
  else match find line [58] 0 with
    | none => .ok none
    | some semicolonPos =>
      if (find line [35] 0).any (· ≤ semicolonPos) then .ok none
      else do
        let text := match find line [35] 0 with
          | some c => line.take c
          | none => line
        let targets ← (splitBytes (text.take semicolonPos)).mapM pathOfBytes
        let prereqs ← (splitBytes (text.drop (semicolonPos + 1))).mapM pathOfBytes
        return some { targets := targets, prereqs := prereqs }

def recipeBegin (line : Bytes) : Nat := if (line.drop 1).head? = some 64 then 2 else 1

/-- `_parse_recipe_line` without locations. -/
def recipeWords (line : Bytes) : Option (Bytes × List Bytes) :=
  if line.head? ≠ some 9 then none
  else match (shellTokens 0 (line.drop (recipeBegin line))).map (·.value) with
    | [] => none
    | program :: args => some (program, args)

/-- One line of the main loop without locations. -/
def readLine (mk : MakefileWords) (line : Bytes) : Except PyErr MakefileWords :=
  match if mk.rules ≠ [] then recipeWords line else none with
  | some recipe => .ok { mk with
      rules := mk.rules.modifyLast fun rule => { rule with recipe := rule.recipe ++ [recipe] } }
  | none => do
    match ← ruleWords line with
    | some rule => return { mk with rules := mk.rules ++ [rule] }
    | none =>
      if mk.rules ≠ [] then
        return { mk with rules := mk.rules.modifyLast fun rule =>
          { rule with unclassified := rule.unclassified ++ [line] } }
      else return { mk with unclassified := mk.unclassified ++ [line] }

theorem splitBySpaces_values {text : TextWithLoc} (h : text.Sound) :
    ∃ toks, splitBySpaces text = .ok toks ∧ toks.map (·.value) = splitBytes text.value := by
  obtain ⟨ps, last, htext, hwords⟩ := exists_runs isSpaceByte text.value
  have hsplit : splitBytes text.value = ps.map (·.raw) := by rw [htext, splitBytes_words hwords]
  refine ⟨tokensAt id (text.loc.beginPos + 0) ps, ?_, ?_⟩
  · rw [splitBySpaces, hsplit]
    exact locateWords_words h htext (Nat.zero_le _) hwords
  · rw [hsplit]
    clear htext hwords hsplit
    generalize text.loc.beginPos + 0 = pos
    induction ps generalizing pos with
    | nil => rfl
    | cons p ps ih => rw [tokensAt_cons, List.map_cons, ih, List.map_cons]; rfl

theorem toPaths_values (toks : List TextWithLoc) :
    (toPaths toks).map (List.map (·.value)) = (toks.map (·.value)).mapM pathOfBytes := by
  induction toks with
  | nil => rfl
  | cons tok toks ih =>
    rw [toPaths] at ih
    rw [toPaths, List.mapM_cons, List.map_cons, List.mapM_cons, ← ih]
    cases pathOfBytes tok.value with
    | error e => rfl
    | ok path =>
      cases toks.mapM fun tok => (do return ⟨tok.loc, ← pathOfBytes tok.value,
          tok.precedingSpacesLoc⟩ : Except PyErr PathWithLoc) with
      | error e => rfl
      | ok paths => rfl

theorem find_lt {text : Bytes} (h : find text [b] 0 = some p) : p < text.length := by
  have hprefix := List.find?_some h
  by_contra hnot
  rw [List.drop_eq_nil_of_le (Nat.not_lt.1 hnot)] at hprefix
  cases hprefix

theorem toPaths_splitBySpaces {text : TextWithLoc} (h : text.Sound) :
    (splitBySpaces text >>= toPaths).map (List.map (·.value)) =
      (splitBytes text.value).mapM pathOfBytes := by
  obtain ⟨toks, htoks, hvalues⟩ := splitBySpaces_values h
  rw [htoks, ← hvalues, ← toPaths_values]
  rfl

theorem rule_words {text : TextWithLoc} (h : text.Sound) (hsemi : semi < text.value.length)
    (args : RecipeLine → List TextWithLoc) :
    (do
      let beforeSemicolon ← text.substr 0 (some semi)
      let targets ← toPaths (← splitBySpaces beforeSemicolon)
      let afterSemicolon ← text.substr (semi + 1)
      let prereqs ← toPaths (← splitBySpaces afterSemicolon)
      return some { loc := text.loc, targets := targets, prereqs := prereqs } :
        Except PyErr (Option Rule)).map (Option.map (Rule.words args)) = do
      let targets ← (splitBytes (text.value.take semi)).mapM pathOfBytes
      let prereqs ← (splitBytes (text.value.drop (semi + 1))).mapM pathOfBytes
      return some { targets := targets, prereqs := prereqs } := by
  have hbefore := TextWithLoc.substr_to h (Nat.zero_le semi) hsemi.le
  have hafter := TextWithLoc.substr_from h (show semi + 1 ≤ text.value.length from hsemi)
  have hsoundb : TextWithLoc.Sound ⟨⟨text.loc.beginPos + 0, text.loc.beginPos + semi⟩,
      (text.value.take semi).drop 0, none⟩ := by
    rw [TextWithLoc.Sound, List.drop_zero, List.length_take_of_le hsemi.le, Nat.add_zero]
  have hsounda : TextWithLoc.Sound ⟨⟨text.loc.beginPos + (semi + 1), text.loc.endPos⟩,
      text.value.drop (semi + 1), none⟩ := by
    rw [TextWithLoc.Sound] at h ⊢
    rw [List.length_drop]
    simp only
    omega
  have htargets := toPaths_splitBySpaces hsoundb
  have hprereqs := toPaths_splitBySpaces hsounda
  rw [List.drop_zero] at hbefore htargets
  rw [← htargets, ← hprereqs, hbefore]
  simp only [hafter, bind, Except.bind]
  generalize splitBySpaces ⟨⟨text.loc.beginPos + (semi + 1), text.loc.endPos⟩,
    text.value.drop (semi + 1), none⟩ = after
  generalize splitBySpaces ⟨⟨text.loc.beginPos + 0, text.loc.beginPos + semi⟩,
    text.value.take semi, none⟩ = before
  cases before with
  | error e => rfl
  | ok toks =>
    simp only
    cases toPaths toks with
    | error e => rfl
    | ok targets =>
      cases after with
      | error e => rfl
      | ok toks' =>
        simp only
        cases toPaths toks' with
        | error e => rfl
        | ok prereqs => rfl

/-- A header line is read as its text is, wherever it lies. -/
theorem parseRuleLine_words {line : TextWithLoc} (h : line.Sound)
    (args : RecipeLine → List TextWithLoc) :
    (parseRuleLine line).map (Option.map (Rule.words args)) = ruleWords line.value := by
  rw [parseRuleLine, ruleWords]
  by_cases htab : line.value.head? = some 9
  · rw [if_pos htab, if_pos htab]
    rfl
  · rw [if_neg htab, if_neg htab]
    cases hsemi : find line.value [58] 0 with
    | none => rfl
    | some semi =>
      have hlt := find_lt hsemi
      simp only
      by_cases hcomment : (find line.value [35] 0).any (· ≤ semi) = true
      · rw [if_pos hcomment, if_pos hcomment]
        rfl
      · rw [if_neg hcomment, if_neg hcomment]
        cases hhash : find line.value [35] 0 with
        | none => exact rule_words h hlt args
        | some c =>
          have hc := find_lt hhash
          rw [hhash] at hcomment
          have hsemic : semi < c := by simpa using hcomment
          have htext := TextWithLoc.substr_to h (Nat.zero_le c) hc.le
          rw [List.drop_zero] at htext
          simp only [htext]
          refine rule_words ?_ ?_ args
          · rw [TextWithLoc.Sound, List.length_take_of_le hc.le, Nat.add_zero]
          · rw [List.length_take_of_le hc.le]
            exact hsemic

theorem parseRecipeLine_eq {line : TextWithLoc} (h : line.Sound) :
    parseRecipeLine line = .ok (if line.value.head? ≠ some 9 then none
      else match shellTokens (line.loc.beginPos + recipeBegin line.value)
          (line.value.drop (recipeBegin line.value)) with
        | [] => none
        | program :: args => some
          { loc := ⟨line.loc.beginPos + recipeBegin line.value, line.loc.endPos⟩
            program := program
            args := args }) := by
  rw [parseRecipeLine]
  by_cases htab : line.value.head? = some 9
  · have hlen : 1 ≤ line.value.length := by
      cases hline : line.value with
      | nil =>
        rw [hline] at htab
        cases htab
      | cons b rest => exact Nat.succ_pos _
    have hsub := TextWithLoc.substr_from h hlen
    have hnot : ¬ line.value.head? ≠ some 9 := fun hne => hne htab
    rw [if_neg hnot, if_neg hnot]
    simp only [hsub, bind, Except.bind]
    by_cases hat : (line.value.drop 1).head? = some 64
    · have hlen' : 1 ≤ (line.value.drop 1).length := by
        cases hline : line.value.drop 1 with
        | nil =>
          rw [hline] at hat
          cases hat
        | cons b rest => exact Nat.succ_pos _
      have hsound : TextWithLoc.Sound
          ⟨⟨line.loc.beginPos + 1, line.loc.endPos⟩, line.value.drop 1, none⟩ := by
        rw [TextWithLoc.Sound] at h ⊢
        rw [List.length_drop]
        simp only
        omega
      have hsub' := TextWithLoc.substr_from hsound hlen'
      rw [List.drop_drop] at hsub'
      have hbegin : recipeBegin line.value = 2 := if_pos hat
      simp only [hat, hsub', hbegin, if_true, splitShellCmdLine]
      generalize shellTokens (line.loc.beginPos + 1 + 1) (line.value.drop (1 + 1)) = toks
      cases toks with
      | nil => rfl
      | cons program args => rfl
    · have hbegin : recipeBegin line.value = 1 := if_neg hat
      simp only [if_neg hat, hbegin, splitShellCmdLine, pure, Except.pure]
      cases shellTokens (line.loc.beginPos + 1) (line.value.drop 1) with
      | nil => rfl
      | cons program args => rfl
  · rw [if_pos htab, if_pos htab]
    rfl

theorem shellTokens_values_congr (pos pos' : Nat) (text : Bytes) :
    (shellTokens pos text).map (·.value) = (shellTokens pos' text).map (·.value) := by
  rw [shellTokens_values, shellTokens_values]

theorem parseRecipeLine_words {line : TextWithLoc} (h : line.Sound) :
    (parseRecipeLine line).map (Option.map (RecipeLine.words (·.args))) =
      .ok (recipeWords line.value) := by
  rw [parseRecipeLine_eq h, recipeWords]
  by_cases htab : line.value.head? ≠ some 9
  · rw [if_pos htab, if_pos htab]
    rfl
  · rw [if_neg htab, if_neg htab, shellTokens_values_congr 0
      (line.loc.beginPos + recipeBegin line.value)]
    cases shellTokens (line.loc.beginPos + recipeBegin line.value)
        (line.value.drop (recipeBegin line.value)) with
    | nil => rfl
    | cons program args => rfl

end MakefileParser

end Cvise
