import Cvise.Outcome
import Cvise.RecipeCuts

namespace Cvise
set_option autoImplicit true

namespace MakefileParser

def Makefile.recipes (mk : Makefile) : List RecipeLine := mk.rules.flatMap (·.recipe)

/-- The position is in a selected argument, or in the blanks before it. -/
def Makefile.IsCut (sel : RecipeLine → TextWithLoc → Bool) (mk : Makefile) (i : Nat) : Prop :=
  ∃ r ∈ mk.recipes, ∃ a ∈ r.args, sel r a = true ∧ a.rangeBegin ≤ i ∧ i < a.loc.endPos

instance (sel : RecipeLine → TextWithLoc → Bool) (mk : Makefile) (i : Nat) :
    Decidable (mk.IsCut sel i) :=
  inferInstanceAs (Decidable (∃ r ∈ mk.recipes, ∃ a ∈ r.args, _))

/-- The makefile with one more recipe line in its last rule. -/
def Makefile.addRecipe (mk : Makefile) (endPos : Nat) (r : RecipeLine) : Makefile :=
  { mk with rules := mk.rules.modifyLast fun rule =>
      { rule with loc := { rule.loc with endPos := endPos }, recipe := rule.recipe ++ [r] } }

/-- The makefile with one more line that is neither a rule nor a recipe line. -/
def Makefile.addUnclassified (mk : Makefile) (line : TextWithLoc) : Makefile :=
  if mk.rules ≠ [] then
    { mk with rules := mk.rules.modifyLast fun rule =>
        { rule with
          loc := { rule.loc with endPos := line.loc.endPos }
          unclassifiedLines := rule.unclassifiedLines ++ [line] } }
  else { mk with unclassifiedLines := mk.unclassifiedLines ++ [line] }

theorem parseLine_recipe {line : TextWithLoc} (hrules : mk.rules ≠ [])
    (h : parseRecipeLine line = .ok (some r)) :
    parseLine mk line = .ok (mk.addRecipe line.loc.endPos r) := by
  rw [parseLine, if_pos hrules, h]
  rfl

theorem parseLine_other {line : TextWithLoc}
    (h : mk.rules = [] ∨ parseRecipeLine line = .ok none) :
    parseLine mk line = (parseRuleLine line).map fun rule => match rule with
      | some rule => { mk with rules := mk.rules ++ [rule] }
      | none => mk.addUnclassified line := by
  have hbind : parseLine mk line = (do
      match ← parseRuleLine line with
      | some rule => return { mk with rules := mk.rules ++ [rule] }
      | none =>
        if mk.rules ≠ [] then
          return { mk with rules := mk.rules.modifyLast fun rule =>
            { rule with
              loc := { rule.loc with endPos := line.loc.endPos }
              unclassifiedLines := rule.unclassifiedLines ++ [line] } }
        else return { mk with unclassifiedLines := mk.unclassifiedLines ++ [line] }) := by
    rw [parseLine]
    rcases h with hrules | hnone
    · rw [if_neg (fun hne => hne hrules)]
      rfl
    · rw [hnone]
      split
      · rfl
      · rfl
  rw [hbind]
  cases parseRuleLine line with
  | error e => rfl
  | ok rule =>
    cases rule with
    | some rule => rfl
    | none =>
      show (if mk.rules ≠ [] then pure _ else pure _) = _
      rw [Except.map, Makefile.addUnclassified]
      split
      · rfl
      · rfl

inductive LineAdds (line : TextWithLoc) (mk : Makefile) : Option RecipeLine → Makefile → Prop where
  | recipe (hrules : mk.rules ≠ []) (hr : parseRecipeLine line = .ok (some r)) :
    LineAdds line mk (some r) (mk.addRecipe line.loc.endPos r)
  | rule (hno : mk.rules = [] ∨ parseRecipeLine line = .ok none)
    (hrule : parseRuleLine line = .ok (some rule)) :
    LineAdds line mk none { mk with rules := mk.rules ++ [rule] }
  | unclassified (hno : mk.rules = [] ∨ parseRecipeLine line = .ok none)
    (hrule : parseRuleLine line = .ok none) : LineAdds line mk none (mk.addUnclassified line)

theorem recipe_or_other {line : TextWithLoc} (hsound : line.Sound) (mk : Makefile) :
    (∃ r, mk.rules ≠ [] ∧ parseRecipeLine line = .ok (some r)) ∨
      (mk.rules = [] ∨ parseRecipeLine line = .ok none) := by
  by_cases hrules : mk.rules = []
  · exact .inr (.inl hrules)
  · have heq := parseRecipeLine_eq hsound
    generalize (if line.value.head? ≠ some 9 then none else _ : Option RecipeLine) = result at heq
    cases result with
    | none => exact .inr (.inr heq)
    | some r => exact .inl ⟨r, hrules, heq⟩

theorem parseLine_adds {line : TextWithLoc} (hsound : line.Sound)
    (h : parseLine mk line = .ok mk') : ∃ r, LineAdds line mk r mk' := by
  rcases recipe_or_other hsound mk with ⟨r, hrules, hr⟩ | hno
  · rw [parseLine_recipe hrules hr] at h
    obtain rfl := Except.ok.inj h
    exact ⟨_, .recipe hrules hr⟩
  · rw [parseLine_other hno] at h
    cases hrule : parseRuleLine line with
    | error e =>
      rw [hrule] at h
      cases h
    | ok rule =>
      rw [hrule] at h
      cases rule with
      | some rule =>
        obtain rfl := Except.ok.inj h
        exact ⟨none, .rule hno hrule⟩
      | none =>
        obtain rfl := Except.ok.inj h
        exact ⟨none, .unclassified hno hrule⟩

theorem recipes_addRecipe {mk : Makefile} (hrules : mk.rules ≠ []) (endPos : Nat) (r : RecipeLine) :
    (mk.addRecipe endPos r).recipes = mk.recipes ++ [r] := by
  obtain ⟨rules, rule, hlast⟩ := (List.eq_nil_or_concat' mk.rules).resolve_left hrules
  rw [Makefile.recipes, Makefile.recipes, Makefile.addRecipe]
  simp only [hlast, List.modifyLast_concat, List.flatMap_append, List.flatMap_singleton,
    List.append_assoc]

theorem recipes_addUnclassified (mk : Makefile) (line : TextWithLoc) :
    (mk.addUnclassified line).recipes = mk.recipes := by
  rw [Makefile.addUnclassified]
  split
  · rename_i hrules
    obtain ⟨rules, rule, hlast⟩ := (List.eq_nil_or_concat' mk.rules).resolve_left hrules
    rw [Makefile.recipes, Makefile.recipes]
    simp only [hlast, List.modifyLast_concat, List.flatMap_append, List.flatMap_singleton]
  · rfl

section words

variable {args : RecipeLine → List TextWithLoc} {mk mk' : Makefile} {line : TextWithLoc}

theorem words_rules_ne (h : mk.rules ≠ []) : (mk.words args).rules ≠ [] :=
  fun hnil => h (List.map_eq_nil_iff.1 hnil)

theorem words_addRecipe (hrules : mk.rules ≠ []) (endPos : Nat) (r : RecipeLine) :
    (mk.addRecipe endPos r).words args = { mk.words args with
      rules := (mk.words args).rules.modifyLast fun rule =>
        { rule with recipe := rule.recipe ++ [r.words args] } } := by
  obtain ⟨rules, rule, hlast⟩ := (List.eq_nil_or_concat' mk.rules).resolve_left hrules
  rw [Makefile.words, Makefile.addRecipe, Makefile.words]
  simp only [hlast, List.modifyLast_concat, List.map_append, List.map_singleton, Rule.words]

theorem words_addUnclassified (mk : Makefile) (line : TextWithLoc) :
    .ok ((mk.addUnclassified line).words args) = if (mk.words args).rules ≠ [] then
        (.ok { mk.words args with rules := (mk.words args).rules.modifyLast fun rule =>
          { rule with unclassified := rule.unclassified ++ [line.value] } } :
            Except PyErr MakefileWords)
      else .ok { mk.words args with
        unclassified := (mk.words args).unclassified ++ [line.value] } := by
  rw [Makefile.addUnclassified]
  by_cases hrules : mk.rules = []
  · have hwords : (mk.words args).rules = [] := List.map_eq_nil_iff.2 hrules
    rw [if_neg (fun hne => hne hrules), if_neg (fun hne => hne hwords), Makefile.words,
      Makefile.words]
    simp only [List.map_append, List.map_singleton]
  · obtain ⟨rules, rule, hlast⟩ := (List.eq_nil_or_concat' mk.rules).resolve_left hrules
    rw [if_pos hrules, if_pos (words_rules_ne hrules), Makefile.words, Makefile.words]
    simp only [hlast, List.modifyLast_concat, List.map_append, List.map_singleton, Rule.words]

theorem readLine_recipe {mk : MakefileWords} (hrules : mk.rules ≠ [])
    (h : recipeWords text = some recipe) : readLine mk text = .ok { mk with
      rules := mk.rules.modifyLast fun rule =>
        { rule with recipe := rule.recipe ++ [recipe] } } := by
  rw [readLine, if_pos hrules, h]

theorem readLine_other {mk : MakefileWords} (h : mk.rules = [] ∨ recipeWords text = none) :
    readLine mk text = (do
      match ← ruleWords text with
      | some rule => .ok { mk with rules := mk.rules ++ [rule] }
      | none =>
        if mk.rules ≠ [] then
          .ok { mk with rules := mk.rules.modifyLast fun rule =>
            { rule with unclassified := rule.unclassified ++ [text] } }
        else .ok { mk with unclassified := mk.unclassified ++ [text] }) := by
  have hnone : (if mk.rules ≠ [] then recipeWords text else none) = none := by
    rcases h with hrules | hnone
    · rw [if_neg (fun hne => hne hrules)]
    · rw [hnone, ite_self]
  rw [readLine, hnone]
  rfl

/-- A line is read as its text is, and a recipe line as a text that has the same words. -/
theorem readLine_adds (h : LineAdds line mk r mk') (hsound : line.Sound)
    (hr : ∀ r' ∈ r, recipeWords text = some (r'.words args))
    (hsame : r = none → text = line.value) :
    readLine (mk.words args) text = .ok (mk'.words args) := by
  have hother (hno : mk.rules = [] ∨ parseRecipeLine line = .ok none) :
      (mk.words args).rules = [] ∨ recipeWords line.value = none := by
    refine hno.imp (fun hrules => List.map_eq_nil_iff.2 hrules) fun hnone => ?_
    have hwords := parseRecipeLine_words hsound
    rw [hnone] at hwords
    exact (Except.ok.inj hwords).symm
  have hrule := parseRuleLine_words hsound args
  cases h with
  | recipe hrules hr' =>
    rw [readLine_recipe (words_rules_ne hrules) (hr _ rfl), words_addRecipe hrules]
  | rule hno hparsed =>
    obtain rfl := hsame rfl
    rw [hparsed] at hrule
    rw [readLine_other (hother hno), ← hrule]
    refine congrArg Except.ok ?_
    rw [Makefile.words, Makefile.words]
    simp only [List.map_append, List.map_singleton]
  | unclassified hno hparsed =>
    obtain rfl := hsame rfl
    rw [hparsed] at hrule
    rw [readLine_other (hother hno), ← hrule, words_addUnclassified]
    rfl

end words

theorem ruleWords_recipe (h : ruleWords text = .ok (some rule)) : rule.recipe = [] := by
  rw [ruleWords] at h
  split at h
  · cases h
  · split at h
    · cases h
    · split at h
      · cases h
      · obtain ⟨targets, -, h⟩ := except_bind_ok.1 h
        obtain ⟨prereqs, -, h⟩ := except_bind_ok.1 h
        obtain rfl := Option.some.inj (Except.ok.inj h)
        rfl

theorem parseRuleLine_recipe {line : TextWithLoc} (hsound : line.Sound)
    (h : parseRuleLine line = .ok (some rule)) : rule.recipe = [] := by
  have hwords := parseRuleLine_words hsound (·.args)
  rw [h] at hwords
  exact List.map_eq_nil_iff.1 (ruleWords_recipe hwords.symm)

theorem LineAdds.recipes {line : TextWithLoc} (h : LineAdds line mk r mk') (hsound : line.Sound) :
    mk'.recipes = mk.recipes ++ r.toList := by
  cases h with
  | recipe hrules hr => exact recipes_addRecipe hrules _ _
  | rule hno hrule =>
    rw [Makefile.recipes, List.flatMap_append, List.flatMap_singleton,
      parseRuleLine_recipe hsound hrule]
    rfl
  | unclassified hno hrule => exact (recipes_addUnclassified mk line).trans (List.append_nil _).symm

theorem LineAdds.within (h : LineAdds line mk r mk') (hsound : line.Sound) :
    ∀ r' ∈ r, parseRecipeLine line = .ok (some r') ∧ r'.Within line.loc := by
  intro r' hr'
  cases h with
  | recipe hrules hr =>
    obtain rfl := Option.some.inj hr'
    exact ⟨hr, parseRecipeLine_within hsound hr⟩
  | rule hno hrule => cases hr'
  | unclassified hno hrule => cases hr'

theorem locateLines_begin (h : line ∈ locateLines pos lines) :
    line.Sound ∧ pos ≤ line.loc.beginPos ∧ line.loc.endPos ≤ pos + lines.flatten.length := by
  induction lines generalizing pos with
  | nil => cases h
  | cons l lines ih =>
    rw [List.flatten_cons, List.length_append]
    rcases List.mem_cons.1 h with rfl | h
    · refine ⟨rfl, Nat.le_refl _, ?_⟩
      simp only
      omega
    · obtain ⟨hsound, hbegin, hend⟩ := ih h
      exact ⟨hsound, by omega, by omega⟩

/-- No line begins within another one. -/
theorem locateLines_apart (h : line ∈ locateLines pos lines) (h' : line' ∈ locateLines pos lines) :
    line'.loc.beginPos ≤ line.loc.beginPos ∨ line.loc.endPos ≤ line'.loc.beginPos := by
  induction lines generalizing pos with
  | nil => cases h
  | cons l lines ih =>
    rcases List.mem_cons.1 h with rfl | h
    · rcases List.mem_cons.1 h' with rfl | h'
      · exact .inl (Nat.le_refl _)
      · exact .inr (locateLines_begin h').2.1
    · rcases List.mem_cons.1 h' with rfl | h'
      · exact .inl ((Nat.le_add_right _ _).trans (locateLines_begin h).2.1)
      · exact ih h h'

theorem locateLines_sound (pos : Nat) (l : Bytes) :
    TextWithLoc.Sound ⟨⟨pos, pos + l.length⟩, l, none⟩ := rfl

/-- Each recipe line that is read lies in one of the lines. -/
theorem foldlM_recipes {lines : List Bytes}
    (h : (locateLines pos lines).foldlM parseLine mk = .ok mkF) : ∃ news,
      mkF.recipes = mk.recipes ++ news ∧
      ∀ r ∈ news, ∃ line ∈ locateLines pos lines, r.Within line.loc := by
  induction lines generalizing pos mk with
  | nil =>
    obtain rfl := Except.ok.inj h
    exact ⟨[], (List.append_nil _).symm, List.forall_mem_nil _⟩
  | cons l lines ih =>
    rw [locateLines, List.foldlM_cons] at h
    obtain ⟨mk', hline, hrest⟩ := except_bind_ok.1 h
    obtain ⟨r, hadds⟩ := parseLine_adds (locateLines_sound pos l) hline
    obtain ⟨news, hnews, hwithin⟩ := ih hrest
    refine ⟨r.toList ++ news, ?_, ?_⟩
    · rw [hnews, hadds.recipes (locateLines_sound pos l), List.append_assoc]
    refine List.forall_mem_append.2 ⟨fun r' hr' => ?_, fun r' hr' => ?_⟩
    · have hr' := Option.mem_toList.1 hr'
      exact ⟨_, List.mem_cons_self, (hadds.within (locateLines_sound pos l) r' hr').2⟩
    · obtain ⟨line, hmem, hin⟩ := hwithin r' hr'
      exact ⟨line, List.mem_cons_of_mem _ hmem, hin⟩

/-- The arguments that are not selected. -/
def unselected (sel : RecipeLine → TextWithLoc → Bool) (r : RecipeLine) : List TextWithLoc :=
  r.args.filter fun a => !sel r a

/-- The lines of a makefile without the selected arguments are read as what remains of it. -/
theorem foldlM_cut (sel : RecipeLine → TextWithLoc → Bool) {lines : List Bytes}
    (h : (locateLines pos lines).foldlM parseLine mk = .ok mkF)
    (hpast : ∀ r ∈ mk.recipes, ∀ a ∈ r.args, a.loc.endPos ≤ pos) :
    (cutLines (fun i => !decide (mkF.IsCut sel i)) pos lines).foldlM readLine
      (mk.words (unselected sel)) = .ok (mkF.words (unselected sel)) := by
  induction lines generalizing pos mk with
  | nil =>
    obtain rfl := Except.ok.inj h
    rfl
  | cons l lines ih =>
    rw [locateLines, List.foldlM_cons] at h
    obtain ⟨mk', hline, hrest⟩ := except_bind_ok.1 h
    have hsound := locateLines_sound pos l
    obtain ⟨r, hadds⟩ := parseLine_adds hsound hline
    obtain ⟨news, hnews, hlater⟩ := foldlM_recipes hrest
    have hhere := hadds.within hsound
    rw [hadds.recipes hsound] at hnews
    -- Within the line only the arguments of the line itself are cut.
    have hcut (i : Nat) (hi : i < l.length) : (!decide (mkF.IsCut sel (pos + i))) = false ↔
        ∃ r' ∈ r, ∃ a ∈ r'.args, sel r' a = true ∧ a.rangeBegin ≤ pos + i ∧
          pos + i < a.loc.endPos := by
      rw [Bool.not_eq_false', decide_eq_true_iff, Makefile.IsCut, hnews]
      constructor
      · rintro ⟨r', hr', a, ha, hsel, hin⟩
        rcases List.mem_append.1 hr' with hr' | hr'
        · rcases List.mem_append.1 hr' with hr' | hr'
          · have hend := hpast r' hr' a ha
            omega
          · exact ⟨r', Option.mem_toList.1 hr', a, ha, hsel, hin⟩
        · obtain ⟨line, hmem, hwithin⟩ := hlater r' hr'
          have hbegin := (locateLines_begin hmem).2.1
          have hplace := hwithin.within a (List.mem_cons_of_mem _ ha)
          omega
      · rintro ⟨r', hr', a, ha, hsel, hin⟩
        exact ⟨r', List.mem_append_left _ (List.mem_append_right _ (Option.mem_toList.2 hr')), a,
          ha, hsel, hin⟩
    have hread : readLine (mk.words (unselected sel))
        (keptAt (fun i => !decide (mkF.IsCut sel (pos + i))) l) =
          .ok (mk'.words (unselected sel)) := by
      refine readLine_adds hadds hsound (fun r' hr' => ?_) fun hnone => ?_
      · refine recipeWords_cut (sel r') hsound (hhere r' hr').1 fun i hi => ?_
        rw [hcut i hi]
        constructor
        · rintro ⟨r'', hr'', hin⟩
          obtain rfl := Option.some.inj (hr'.symm.trans hr'')
          exact hin
        · intro hin
          exact ⟨r', hr', hin⟩
      · refine keptAt_of_forall fun i hi => Bool.eq_true_of_not_eq_false fun hno => ?_
        obtain ⟨r', hr', -⟩ := (hcut i hi).1 hno
        rw [hnone] at hr'
        cases hr'
    rw [cutLines, List.foldlM_cons, hread]
    refine ih hrest fun r' hr' a ha => ?_
    rw [hadds.recipes hsound] at hr'
    rcases List.mem_append.1 hr' with hr' | hr'
    · exact (hpast r' hr' a ha).trans (Nat.le_add_right _ _)
    · exact ((hhere r' (Option.mem_toList.1 hr')).2.within a (List.mem_cons_of_mem _ ha)).2.2

/-- A line is read as its text is, wherever it lies. -/
theorem parseLine_words {line : TextWithLoc} (hsound : line.Sound) (mk : Makefile) :
    (parseLine mk line).map (Makefile.words (·.args)) =
      readLine (mk.words (·.args)) line.value := by
  have hrecipe := parseRecipeLine_words hsound
  cases h : parseLine mk line with
  | ok mk' =>
    obtain ⟨r, hadds⟩ := parseLine_adds hsound h
    refine (readLine_adds hadds hsound (fun r' hr' => ?_) fun _ => rfl).symm
    rw [(hadds.within hsound r' hr').1] at hrecipe
    exact (Except.ok.inj hrecipe).symm
  | error e =>
    rcases recipe_or_other hsound mk with ⟨r, hrules, hr⟩ | hno
    · rw [parseLine_recipe hrules hr] at h
      cases h
    · have hrule := parseRuleLine_words hsound (·.args)
      have hother : (mk.words (·.args)).rules = [] ∨ recipeWords line.value = none := by
        refine hno.imp (fun hrules => List.map_eq_nil_iff.2 hrules) fun hnone => ?_
        rw [hnone] at hrecipe
        exact (Except.ok.inj hrecipe).symm
      rw [parseLine_other hno] at h
      rw [readLine_other hother, ← hrule]
      cases hparse : parseRuleLine line with
      | ok rule =>
        rw [hparse] at h
        cases h
      | error e' =>
        rw [hparse] at h
        obtain rfl := Except.error.inj h
        rfl

theorem length_logicalLines (data : Bytes) : (logicalLines data).flatten.length = data.length := by
  have hflat : ((joinedLines .text data).map joinedText).flatten =
      (joinedLines .text data).flatten.map Prod.snd := List.map_flatten.symm
  conv_rhs => rw [← fileText_joinedLines .text data, fileText, List.length_map]
  rw [logicalLines_eq, hflat, List.length_map]

theorem foldlM_words (pos : Nat) (lines : List Bytes) (mk : Makefile) :
    ((locateLines pos lines).foldlM parseLine mk).map (Makefile.words (·.args)) =
      lines.foldlM readLine (mk.words (·.args)) := by
  induction lines generalizing pos mk with
  | nil => rfl
  | cons l lines ih =>
    have hline := parseLine_words (locateLines_sound pos l) mk
    rw [locateLines, List.foldlM_cons, List.foldlM_cons, ← hline]
    cases parseLine mk ⟨⟨pos, pos + l.length⟩, l, none⟩ with
    | error e => rfl
    | ok mk' => exact ih (pos + l.length) mk'

/-- Each command of a makefile lies in a line of the file. -/
theorem parse_recipes {data : Bytes} (h : parse data = .ok mk) :
    ∀ r ∈ mk.recipes, ∃ line ∈ locateLines 0 (logicalLines data), r.Within line.loc := by
  obtain ⟨mk₀, hfold, hmk⟩ := except_bind_ok.1 h
  obtain rfl := Except.ok.inj hmk
  obtain ⟨news, hnews, hwithin⟩ := foldlM_recipes hfold
  intro r hr
  have hr : r ∈ mk₀.recipes := hr
  rw [hnews] at hr
  exact hwithin r hr

theorem endPos_le_length {data : Bytes} (h : line ∈ locateLines 0 (logicalLines data)) :
    line.loc.endPos ≤ data.length := by
  have hfile := (locateLines_begin h).2.2
  rwa [length_logicalLines, Nat.zero_add] at hfile

/-- Every word of a command ends in a byte of the file that is no blank and no backslash. -/
def Makefile.SolidWords (mk : Makefile) (data : Bytes) : Prop :=
  ∀ r ∈ mk.recipes, ∀ t ∈ r.program :: r.args, ∀ b ∈ data[t.loc.endPos - 1]?, IsSolid b

theorem exists_before {R : β → β → Prop} {t : β} (h : (t :: ts).IsChain R) (ha : a ∈ ts) :
    ∃ u ∈ t :: ts, R u a := by
  induction ts generalizing t with
  | nil => cases ha
  | cons t' ts ih =>
    obtain ⟨hR, hrest⟩ := List.isChain_cons_cons.1 h
    rcases List.mem_cons.1 ha with rfl | ha
    · exact ⟨t, List.mem_cons_self, hR⟩
    · obtain ⟨u, hu, hRu⟩ := ih hrest ha
      exact ⟨u, List.mem_cons_of_mem _ hu, hRu⟩

/-- Where a cut begins or ends, a word of a command has ended. -/
theorem solid_of_cut {mk : Makefile} {data : Bytes} {sel : RecipeLine → TextWithLoc → Bool}
    (hsolid : mk.SolidWords data) (hwithin : ∀ r ∈ mk.recipes, ∃ loc, r.Within loc)
    (hb : data[i]? = some b) (hne : ¬ (mk.IsCut sel i ↔ mk.IsCut sel (i + 1))) : IsSolid b := by
  have hlast {r : RecipeLine} (hr : r ∈ mk.recipes) {t : TextWithLoc} (ht : t ∈ r.program :: r.args)
      (hend : t.loc.endPos = i + 1) : IsSolid b := by
    refine hsolid r hr t ht b ?_
    rw [hend, Nat.add_sub_cancel]
    exact hb
  by_cases hcut : mk.IsCut sel i
  · obtain ⟨r, hr, a, ha, hsel, hbegin, hend⟩ := hcut
    refine hlast hr (List.mem_cons_of_mem _ ha) (Nat.le_antisymm ?_ hend)
    by_contra hlong
    exact hne (iff_of_true ⟨r, hr, a, ha, hsel, hbegin, hend⟩
      ⟨r, hr, a, ha, hsel, Nat.le_succ_of_le hbegin, Nat.lt_of_not_le hlong⟩)
  · have hcut' : mk.IsCut sel (i + 1) := by
      by_contra hnot
      exact hne (iff_of_false hcut hnot)
    obtain ⟨r, hr, a, ha, hsel, hbegin, hend⟩ := hcut'
    obtain ⟨loc, hin⟩ := hwithin r hr
    obtain ⟨t, ht, hnext⟩ := exists_before hin.follows ha
    refine hlast hr ht (hnext.symm.trans (Nat.le_antisymm hbegin ?_))
    by_contra hlong
    exact hcut ⟨r, hr, a, ha, hsel, Nat.le_of_lt_succ (Nat.lt_of_not_le hlong),
      Nat.lt_of_succ_lt hend⟩

/-- A makefile of which arguments are cut is parsed as before, but for these arguments. -/
theorem parse_cut {data : Bytes} (hparse : parse data = .ok mk) (hsolid : mk.SolidWords data)
    (sel : RecipeLine → TextWithLoc → Bool) :
    (parse (keptAt (fun i => !decide (mk.IsCut sel i)) data)).map (Makefile.words (·.args)) =
      .ok (mk.words (unselected sel)) := by
  have hrecipes := parse_recipes hparse
  obtain ⟨mk₀, hfold, hmk⟩ := except_bind_ok.1 hparse
  obtain rfl := Except.ok.inj hmk
  have hlines : logicalLines (keptAt (fun i => !decide ((collectTargets mk₀).IsCut sel i)) data) =
      cutLines (fun i => !decide ((collectTargets mk₀).IsCut sel i)) 0 (logicalLines data) := by
    refine logicalLines_keptAt (fun i b hb hne => ?_) (fun line hline => ?_) ?_
    · refine solid_of_cut hsolid (fun r hr => ?_) hb fun hsame =>
        hne (by rw [decide_eq_decide.2 hsame])
      obtain ⟨line, -, hin⟩ := hrecipes r hr
      exact ⟨line.loc, hin⟩
    · rw [Bool.not_eq_true', decide_eq_false_iff_not]
      rintro ⟨r, hr, a, ha, -, hbegin, hend⟩
      obtain ⟨line', hline', hin⟩ := hrecipes r hr
      have hplace := hin.within a (List.mem_cons_of_mem _ ha)
      have hapart := locateLines_apart hline' hline
      omega
    · rw [Bool.not_eq_true', decide_eq_false_iff_not]
      rintro ⟨r, hr, a, ha, -, hbegin, hend⟩
      obtain ⟨line, hline, hin⟩ := hrecipes r hr
      have hplace := hin.within a (List.mem_cons_of_mem _ ha)
      have hfile := endPos_le_length hline
      omega
  have hread := foldlM_cut sel hfold (List.forall_mem_nil _)
  have hwords := foldlM_words 0 (logicalLines (keptAt (fun i =>
    !decide ((collectTargets mk₀).IsCut sel i)) data)) {}
  rw [hlines] at hwords
  rw [parse, hlines]
  have hcut := hwords.trans hread
  cases hfoldcut : (locateLines 0 (cutLines (fun i =>
      !decide ((collectTargets mk₀).IsCut sel i)) 0 (logicalLines data))).foldlM parseLine {} with
  | error e =>
    rw [hfoldcut] at hcut
    cases hcut
  | ok mk' =>
    rw [hfoldcut] at hcut
    exact hcut

end MakefileParser

end Cvise
