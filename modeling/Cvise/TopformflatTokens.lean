import Cvise.Brackets
import Cvise.Topformflat

namespace Cvise
set_option autoImplicit true
open Pattern

namespace Topformflat

def isBlankByte (b : UInt8) : Bool := b = 32 || b = 9 || b = 10

/-- By how much a rule changes the nesting. -/
def RuleAction.delta : RuleAction → Int
  | .openBrace => 1
  | .closeBrace => -1
  | _ => 0

/-- A token, blanks but for the brace that it counts. -/
def countedToken : RuleAction → Nat → Bytes
  | .openBrace, n => 123 :: List.replicate (n - 1) 32
  | .closeBrace, n => 125 :: List.replicate (n - 1) 32
  | _, n => List.replicate n 32

/-- The text with only those braces in it that are counted: they are outside of strings, character
literals, line comments and directives. -/
def countedBraces (c : StartCondition) (atBol : Bool) (text : Bytes) : Bytes :=
  if text = [] then []
  else
    let n := (matchRule c atBol text).1
    let action := (matchRule c atBol text).2
    countedToken action n ++
      countedBraces (Flat.nextCondition c action) ((text.take n).getLast? = some 10) (text.drop n)
termination_by text.length
decreasing_by
  have hpos := matchRule_pos c atBol text
  have hlen : 0 < text.length := List.length_pos_iff.2 (by assumption)
  rw [List.length_drop]
  exact Nat.sub_lt hlen hpos

theorem countedToken_length (action : RuleAction) (h : 0 < n) :
    (countedToken action n).length = n := by
  cases action with
  | openBrace => simp [countedToken, Nat.sub_add_cancel h]
  | closeBrace => simp [countedToken, Nat.sub_add_cancel h]
  | _ => exact List.length_replicate

theorem height_countedToken (action : RuleAction) (h : 0 < k) (hk : k ≤ n) :
    Brackets.height 123 125 (countedToken action n) k = action.delta := by
  obtain ⟨k, rfl⟩ := Nat.exists_eq_succ_of_ne_zero h.ne'
  have hrest (m : Nat) (b : UInt8) (hb : b ≠ 32) :
      ((List.replicate m (32 : UInt8)).take k).count b = 0 := by
    rw [List.take_replicate, List.count_replicate, if_neg (by simpa using hb.symm)]
  cases action with
  | openBrace =>
    rw [countedToken, Brackets.height, List.take_succ_cons, List.count_cons, List.count_cons,
      hrest _ _ (by decide), hrest _ _ (by decide)]
    rfl
  | closeBrace =>
    rw [countedToken, Brackets.height, List.take_succ_cons, List.count_cons, List.count_cons,
      hrest _ _ (by decide), hrest _ _ (by decide)]
    rfl
  | _ =>
    simp [countedToken, Brackets.height, RuleAction.delta, List.take_replicate, List.count_replicate]

/-- What the scanner does is the action of a rule that matches the text, or nothing at all. -/
theorem matchRule_mem (h : matchRule c atBol text = (n, action)) : action = .nothing ∨
    ∃ p, (p, action) ∈ rules c atBol ∧ text.take n ∈ p.language := by
  rw [matchRule] at h
  cases hm : munch (rules c atBol) text with
  | none =>
    rw [hm] at h
    exact .inl (Prod.mk.inj h).2.symm
  | some found =>
    obtain rfl : found = (n, action) := by
      rw [hm] at h
      exact h
    obtain ⟨p, hp, -, hmem⟩ := munch_mem hm
    exact .inr ⟨p, hp, hmem⟩

theorem directive_shape (h : matchRule c atBol text = (n, .directive)) :
    ∃ before behind, text.take n = before ++ 35 :: (behind ++ [10]) := by
  rcases matchRule_mem h with he | ⟨p, hp, hmem⟩
  · cases he
  · obtain rfl : p = directivePattern := by
      cases c with
      | initial =>
        cases atBol with
        | false => simp [rules] at hp
        | true => simpa [rules] using hp
      | string => simp [rules, literalRules] at hp
      | charlit => simp [rules, literalRules] at hp
    obtain ⟨before, -, s₁, h₁, he⟩ := mem_seq.1 hmem
    obtain ⟨sharp, hsharp, s₂, h₂, rfl⟩ := mem_seq.1 h₁
    obtain ⟨line, -, s₃, h₃, rfl⟩ := mem_seq.1 h₂
    obtain ⟨lines, -, newline, hnewline, rfl⟩ := mem_seq.1 h₃
    refine ⟨before, line ++ lines, ?_⟩
    rw [← he, (mem_word _).1 hsharp, (mem_word _).1 hnewline, List.append_assoc]
    rfl

/-- The tokens behind which a chunk may end do not end with a newline. -/
theorem last_not_newline (h : matchRule c atBol text = (n, action))
    (ha : action = .semicolon ∨ action = .openBrace ∨ action = .closeBrace) :
    (text.take n).getLast? ≠ some 10 := by
  intro hlast
  rcases matchRule_mem h with rfl | ⟨p, hp, hmem⟩
  · rcases ha with ha | ha | ha <;> cases ha
  · obtain ⟨body, hbody⟩ := List.getLast?_eq_some_iff.1 hlast
    rw [hbody] at hmem
    have hall : ∀ r ∈ rules c atBol, (r.2 = .semicolon ∨ r.2 = .openBrace ∨ r.2 = .closeBrace) →
        r.1.endsIn 10 = false := by
      cases atBol <;> cases c <;> decide +kernel
    cases (endsIn_of_mem hmem).symm.trans (hall (p, action) hp ha)

/-- Inside of a literal the scanner only looks for its end. -/
theorem literal_action (hc : c ≠ .initial) (h : matchRule c atBol text = (n, action)) :
    action = .nothing ∨ action = .switchTo .initial := by
  rcases matchRule_mem h with rfl | ⟨p, hp, -⟩
  · exact .inl rfl
  · have hall : ∀ r ∈ rules c atBol, c ≠ .initial → r.2 = .nothing ∨ r.2 = .switchTo .initial := by
      cases atBol <;> cases c <;> decide +kernel
    exact hall (p, action) hp hc

/-- The rules without the last one, which matches any byte but a newline. -/
theorem rules_initial (atBol : Bool) :
    rules .initial atBol = (rules .initial atBol).dropLast ++ [(anyByte, .nothing)] := by
  cases atBol <;> rfl

theorem blank_cases (h : isBlankByte b = true) : b = 32 ∨ b = 9 ∨ b = 10 := by
  rw [isBlankByte, Bool.or_eq_true, Bool.or_eq_true, decide_eq_true_iff, decide_eq_true_iff,
    decide_eq_true_iff] at h
  exact or_assoc.1 h

theorem blank_matched (atBol : Bool) (h : isBlankByte b = true) :
    ∃ p, (p, RuleAction.whitespace) ∈ (rules .initial atBol).dropLast ∧ [b] ∈ p.language := by
  rcases blank_cases h with rfl | rfl | rfl
  · exact ⟨plus blankPattern, by cases atBol <;> simp [rules], (mem_deriv _ _).1 (by
      rw [← nullable_iff]; decide +kernel)⟩
  · exact ⟨plus blankPattern, by cases atBol <;> simp [rules], (mem_deriv _ _).1 (by
      rw [← nullable_iff]; decide +kernel)⟩
  · exact ⟨newlinePattern, by cases atBol <;> simp [rules], (mem_deriv _ _).1 (by
      rw [← nullable_iff]; decide +kernel)⟩

/-- Outside of literals, only white space and directives begin with a blank. -/
theorem first_not_blank (h : matchRule .initial atBol (b :: bs) = (n, action))
    (hspace : action ≠ .whitespace) (hdir : action ≠ .directive) : isBlankByte b = false := by
  by_contra hb
  obtain ⟨q, hq, hqmem⟩ := blank_matched atBol (by simpa using hb)
  obtain ⟨m, r, hm, hle⟩ := le_munch (s := b :: bs) (m := 1) hq (Nat.succ_pos _) hqmem
  have hlast (k : Nat) (r' : RuleAction)
      (hk : munch [(anyByte, RuleAction.nothing)] (b :: bs) = some (k, r')) : k ≤ m := by
    obtain ⟨p, hp, hklen, hkmem⟩ := munch_mem hk
    obtain ⟨rfl, -⟩ := Prod.mk.inj (List.mem_singleton.1 hp)
    obtain ⟨a, ha⟩ := eq_singleton_of_isSat (p := anyByte) rfl hkmem
    have hlen := congrArg List.length ha
    rw [List.length_take_of_le hklen] at hlen
    exact hlen.trans_le hle
  have hwhole := munch_before hm hlast
  rw [matchRule, rules_initial, hwhole] at h
  obtain ⟨rfl, rfl⟩ := Prod.mk.inj h
  obtain ⟨p, hp, -, hmem⟩ := munch_mem hm
  have hall : ∀ r ∈ (rules .initial atBol).dropLast, r.2 ≠ .whitespace → r.2 ≠ .directive →
      (r.1.deriv 32).isNever = true ∧ (r.1.deriv 9).isNever = true ∧
        (r.1.deriv 10).isNever = true := by
    cases atBol <;> decide +kernel
  obtain ⟨h32, h9, h10⟩ := hall _ hp hspace hdir
  obtain ⟨m, rfl⟩ := Nat.exists_eq_succ_of_ne_zero (Nat.ne_of_gt hle)
  rw [List.take_succ_cons] at hmem
  rcases blank_cases (by simpa using hb) with rfl | rfl | rfl
  · exact not_mem_of_deriv h32 hmem
  · exact not_mem_of_deriv h9 hmem
  · exact not_mem_of_deriv h10 hmem

end Topformflat

end Cvise
