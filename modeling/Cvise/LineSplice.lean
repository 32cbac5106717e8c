import Cvise.ClexLexemes

namespace Cvise
set_option autoImplicit true
open Pattern

/-- The text ends in a backslash and a newline, with at most blanks between them. -/
def EndsInSplice (data : Bytes) : Prop :=
  ∃ text blanks, data = text ++ 92 :: (blanks ++ [10]) ∧ ∀ b ∈ blanks, b = 32 ∨ b = 9

/-- The last thing in the file is a comment. Before a newline that can only be an open one. -/
def EndsInComment (data : Bytes) : Prop :=
  ∃ l ∈ (scanFile data).getLast?, l.action = .comment

/-- Whatever was read before, the rest is scanned as a file of its own. -/
theorem scanFile_split (h : scanFile data = before ++ ls) : scanFile (textOf ls) = ls := by
  induction before generalizing data with
  | nil =>
    have hls : ls = scanFile data := h.symm
    rw [hls, textOf_scanFile]
  | cons l before ih =>
    by_cases hne : data = []
    · rw [hne, scanFile_nil] at h
      cases h
    · rw [scanFile_cons hne] at h
      exact ih (List.cons.inj h).2

/-- What the scanner says of one lexeme. -/
structure Lexeme.Read (l : Lexeme) (after : Bytes) : Prop where
  ne_nil : l.text ≠ []
  action : (matchRule (l.text ++ after)).2 = l.action
  length : lexemeLength (l.text ++ after) = l.text.length

theorem scanFile_read (h : scanFile data = before ++ l :: after) : l.Read (textOf after) := by
  have hscan := scanFile_split h
  have hne : textOf (l :: after) ≠ [] := by
    intro he
    rw [he, scanFile_nil] at hscan
    cases hscan
  rw [scanFile_cons hne] at hscan
  obtain ⟨hl, -⟩ := List.cons.inj hscan
  have htext : (textOf (l :: after)).take (lexemeLength (textOf (l :: after))) = l.text :=
    congrArg Lexeme.text hl
  have hlen := congrArg List.length htext
  rw [List.length_take_of_le (lexemeLength_le hne)] at hlen
  have hpos := lexemeLength_pos (textOf (l :: after))
  refine ⟨?_, congrArg Lexeme.action hl, hlen⟩
  intro he
  rw [hlen, he] at hpos
  exact Nat.lt_irrefl 0 hpos

theorem textOf_ne_nil (h : scanFile data = before ++ ls) (hne : ls ≠ []) : textOf ls ≠ [] := by
  obtain ⟨l, ls, rfl⟩ := List.exists_cons_of_ne_nil hne
  exact fun he => (scanFile_read h).ne_nil (List.append_eq_nil_iff.1 he).1

/-- The lexeme that a byte of the text belongs to. -/
theorem lexeme_at {ls : List Lexeme} (h : textOf ls = a ++ c :: b) : ∃ before m after left right,
    ls = before ++ m :: after ∧ a = textOf before ++ left ∧ m.text = left ++ c :: right ∧
      b = right ++ textOf after := by
  induction ls generalizing a with
  | nil => exact absurd h.symm (by simp [textOf])
  | cons l ls ih =>
    rw [textOf_cons] at h
    rcases List.append_eq_append_iff.1 h with ⟨left, ha, hrest⟩ | ⟨right, hl, hrest⟩
    · obtain ⟨before, m, after, left', right, hls, hleft, hm, hb⟩ := ih hrest
      refine ⟨l :: before, m, after, left', right, by rw [hls]; rfl, ?_, hm, hb⟩
      rw [ha, hleft, textOf_cons, List.append_assoc]
    · cases right with
      | nil =>
        obtain ⟨before, m, after, left', right, hls, hleft, hm, hb⟩ :=
          ih (a := []) (hrest.symm : textOf ls = [] ++ c :: b)
        refine ⟨l :: before, m, after, left', right, by rw [hls]; rfl, ?_, hm, hb⟩
        rw [textOf_cons, List.append_assoc, ← hleft, hl, List.append_nil, List.append_nil]
      | cons c' right =>
        obtain ⟨rfl, hb⟩ := List.cons.inj hrest
        exact ⟨[], l, ls, a, right, rfl, rfl, hl, hb⟩

theorem le_matchRule (hr : (p, action) ∈ clexRules) (hle : m ≤ text.length)
    (h : text.take m ∈ p.language) : m ≤ (matchRule text).1 := by
  obtain ⟨n, action', hn, hmn⟩ := le_munch hr hle h
  rw [matchRule, hn]
  exact hmn

theorem newlineRule_mem : (newlinePattern, .token .newline) ∈ clexRules := by
  simp [clexRules]

theorem anyByteRule_mem : (anyByte, .token .unknown) ∈ clexRules := by
  simp [clexRules]

theorem spliceRule_mem : (splicePattern, .token .other) ∈ clexRules := by
  simp [clexRules]

/-- Some rule matches every byte, so the default rule is never taken. -/
theorem matchRule_mem (hne : text ≠ []) : ∃ p, (p, (matchRule text).2) ∈ clexRules ∧
    text.take (matchRule text).1 ∈ p.language := by
  obtain ⟨b, bs, rfl⟩ := List.exists_cons_of_ne_nil hne
  have hfound : ∃ n action, munch clexRules (b :: bs) = some (n, action) ∧ 1 ≤ n := by
    by_cases hb : b = 10
    · exact le_munch newlineRule_mem (Nat.succ_pos _) ⟨b, by rw [hb]; decide, rfl⟩
    · have hnl : "\n".toUTF8.data.toList = [10] := by decide
      refine le_munch anyByteRule_mem (Nat.succ_pos _) ⟨b, ?_, rfl⟩
      simp only [hnl, List.contains_cons, List.contains_nil, Bool.or_false, Bool.not_eq_true',
        beq_eq_false_iff_ne]
      exact hb
  obtain ⟨n, action, hn, -⟩ := hfound
  obtain ⟨p, hp, -, hmem⟩ := munch_mem hn
  rw [matchRule, hn]
  exact ⟨p, hp, hmem⟩

theorem matchRule_ne_echo (hne : text ≠ []) : (matchRule text).2 ≠ .echo := by
  obtain ⟨p, hp, -⟩ := matchRule_mem hne
  have hrules : ∀ r ∈ clexRules, r.2 ≠ .echo := by decide +kernel
  exact hrules _ hp

/-- Only two rules read a newline last: the splice, and the newline's own. -/
theorem rule_of_newline (hr : r ∈ clexRules) (h : r.1.endsIn 10 = true) :
    r = (splicePattern, .token .other) ∨ r = (newlinePattern, .token .newline) := by
  have hplain : ∀ r ∈ keywords.map (fun s => (quoted s, Action.token .keyword)) ++ lexicalRules ++
      operators.map (fun p => (p, .token .op)), r.1.endsIn 10 = false := by decide +kernel
  have hlone : ∀ r ∈ [(quoted "#", Action.token .other), (quoted "\\", .token .other),
      (quoted "/*", .comment), (oneOf " \t\x0b\x0c", .token .ws), (anyByte, .token .unknown)],
      r.1.endsIn 10 = false := by decide +kernel
  by_contra hne
  obtain ⟨hsplice, hnewline⟩ := not_or.1 hne
  have hfalse : r.1.endsIn 10 = false := by
    rcases List.mem_append.1 hr with hr | hr
    · exact hplain r hr
    · refine hlone r ?_
      simp only [List.mem_cons, hsplice, hnewline, false_or] at hr ⊢
      exact hr
  rw [h] at hfalse
  cases hfalse

/-- A rule that can stop at a backslash or a blank reads one byte. -/
theorem isSat_of_blank (hr : r ∈ clexRules)
    (h : r.1.endsIn 92 = true ∨ r.1.endsIn 32 = true ∨ r.1.endsIn 9 = true) :
    r.1.isSat = true := by
  have hrules : ∀ r ∈ clexRules, r.1.endsIn 92 = true ∨ r.1.endsIn 32 = true ∨
      r.1.endsIn 9 = true → r.1.isSat = true := by
    decide +kernel
  exact hrules r hr h

theorem mem_splicePattern : s ∈ splicePattern.language ↔
    ∃ blanks, s = 92 :: (blanks ++ [10]) ∧ ∀ b ∈ blanks, b = 32 ∨ b = 9 := by
  have hslash : quoted "\\" = sat (· = 92) := rfl
  have hnewline : quoted "\n" = sat (· = 10) := rfl
  have hblanks (b : UInt8) : " \t".toUTF8.data.toList.contains b = true ↔ b = 32 ∨ b = 9 := by
    have hlist : " \t".toUTF8.data.toList = [32, 9] := by decide
    rw [hlist]
    simp
  simp only [splicePattern, hslash, hnewline, oneOf, mem_seq, mem_star_sat, mem_sat, hblanks]
  constructor
  · rintro ⟨_, ⟨a, ha, rfl⟩, _, ⟨blanks, hb, _, ⟨c, hc, rfl⟩, rfl⟩, rfl⟩
    rw [of_decide_eq_true ha, of_decide_eq_true hc]
    exact ⟨blanks, rfl, hb⟩
  · rintro ⟨blanks, rfl, hb⟩
    exact ⟨[92], ⟨92, rfl, rfl⟩, _, ⟨blanks, hb, [10], ⟨10, rfl, rfl⟩, rfl⟩, rfl⟩

/-- What a comment's loop reads ends in a slash if something is left of the file. -/
theorem commentLength_ends (h : commentLength prev text < text.length) :
    ∃ t, text.take (commentLength prev text) = t ++ [47] := by
  induction text generalizing prev with
  | nil => exact absurd h (Nat.not_lt_zero _)
  | cons c text ih =>
    rw [commentLength] at h ⊢
    split at h
    · rename_i hc
      rw [if_pos hc, hc.1]
      exact ⟨[], rfl⟩
    · rename_i hc
      obtain ⟨t, ht⟩ := ih (Nat.lt_of_succ_lt_succ h)
      rw [if_neg hc, List.take_succ_cons, ht]
      exact ⟨c :: t, rfl⟩

namespace Lexeme.Read

theorem comment (h : Lexeme.Read l after) (ha : l.action = .comment) (hafter : after ≠ []) :
    ∃ t, l.text = t ++ [47] := by
  have hlen := h.length
  have hpos := List.length_pos_iff.2 hafter
  rw [lexemeLength, h.action, if_pos ha] at hlen
  generalize (matchRule (l.text ++ after)).1 = n at hlen
  have hdrop : commentLength 0 ((l.text ++ after).drop n) < ((l.text ++ after).drop n).length := by
    rw [List.length_drop, List.length_append]
    omega
  obtain ⟨t, ht⟩ := commentLength_ends hdrop
  have htake : (l.text ++ after).take l.text.length = l.text := List.take_left
  rw [← hlen, List.take_add, ht, ← List.append_assoc] at htake
  exact ⟨_, htake.symm⟩

theorem token (h : Lexeme.Read l after) (ha : l.action = .token kind) :
    (∃ p, (p, .token kind) ∈ clexRules ∧ l.text ∈ p.language) ∧
      ∀ p action m, (p, action) ∈ clexRules → m ≤ (l.text ++ after).length →
        (l.text ++ after).take m ∈ p.language → m ≤ l.text.length := by
  have hlen := h.length
  rw [lexemeLength, h.action, ha, if_neg Action.noConfusion] at hlen
  have hne : l.text ++ after ≠ [] := fun he => h.ne_nil (List.append_eq_nil_iff.1 he).1
  obtain ⟨p, hp, hmem⟩ := matchRule_mem hne
  rw [h.action, ha] at hp
  rw [hlen, List.take_left] at hmem
  refine ⟨⟨p, hp, hmem⟩, fun q action m hq hm hin => ?_⟩
  exact hlen ▸ le_matchRule hq hm hin

theorem ne_echo (h : Lexeme.Read l after) : l.action ≠ .echo := by
  have hne : l.text ++ after ≠ [] := fun he => h.ne_nil (List.append_eq_nil_iff.1 he).1
  exact h.action ▸ matchRule_ne_echo hne

theorem newline (h : Lexeme.Read l after) (ht : l.text = t ++ [10]) :
    l.action = .comment ∨ (l.action = .token .newline ∧ l.text = [10]) ∨
      (l.action = .token .other ∧ EndsInSplice l.text) := by
  cases ha : l.action with
  | comment => exact .inl rfl
  | echo => exact absurd ha h.ne_echo
  | token kind =>
    obtain ⟨⟨p, hp, hmem⟩, -⟩ := h.token ha
    have hends : p.endsIn 10 = true := endsIn_of_mem (ht ▸ hmem)
    rcases rule_of_newline hp hends with he | he
    · obtain ⟨rfl, hk⟩ := Prod.mk.inj he
      obtain ⟨blanks, htext, hblanks⟩ := mem_splicePattern.1 hmem
      exact .inr (.inr ⟨hk, [], blanks, htext, hblanks⟩)
    · obtain ⟨rfl, hk⟩ := Prod.mk.inj he
      obtain ⟨a, -, htext⟩ := hmem
      have ha10 := List.append_inj_right' (ht.symm.trans htext : t ++ [10] = [] ++ [a]) rfl
      exact .inr (.inl ⟨hk, htext.trans ha10.symm⟩)

end Lexeme.Read

theorem EndsInSplice.append (h : EndsInSplice data) (text : Bytes) : EndsInSplice (text ++ data) := by
  obtain ⟨text', blanks, rfl, hblanks⟩ := h
  exact ⟨text ++ text', blanks, (List.append_assoc _ _ _).symm, hblanks⟩

/-- What a file with a newline at its end has there, apart from splices. -/
theorem last_of_newline (h : scanFile (text ++ [10]) = before ++ [l])
    (hcond : EndsInSplice (text ++ [10]) → EndsInComment (text ++ [10])) :
    l.action = .comment ∨ l.action = .token .newline := by
  have hread := scanFile_read h
  have htext := textOf_scanFile (text ++ [10])
  rw [h, textOf_append, textOf_singleton] at htext
  obtain ⟨w, b, hw⟩ := (List.eq_nil_or_concat' l.text).resolve_left hread.ne_nil
  have hb : b = 10 := by
    rw [hw, ← List.append_assoc] at htext
    exact List.singleton_inj.1 (List.append_inj_right' htext rfl)
  rw [hb] at hw
  rcases hread.newline hw with ha | ⟨ha, -⟩ | ⟨ha, hsplice⟩
  · exact .inl ha
  · exact .inr ha
  · obtain ⟨l', hl', ha'⟩ := hcond (htext ▸ hsplice.append _)
    rw [h, List.getLast?_concat] at hl'
    obtain rfl := Option.some.inj hl'
    exact .inl ha'

/-- A splice at the end of a file is a token of its own, unless a comment takes it in. -/
theorem EndsInSplice.last (h : EndsInSplice data) : ∃ before l, scanFile data = before ++ [l] ∧
    (l.action = .comment ∨ l.action = .token .other) := by
  obtain ⟨text, blanks, hdata, hblanks⟩ := h
  obtain ⟨before, m, after, left, right, hscan, -, hm, hright⟩ :=
    lexeme_at ((textOf_scanFile data).trans hdata)
  have hread := scanFile_read hscan
  cases after with
  | nil =>
    obtain rfl : right = blanks ++ [10] := by
      rw [hright]
      exact (List.append_nil right).symm
    rw [← List.cons_append, ← List.append_assoc] at hm
    refine ⟨before, m, hscan, ?_⟩
    rcases hread.newline hm with ha | ⟨-, htext⟩ | ⟨ha, -⟩
    · exact .inl ha
    · have hlen := congrArg List.length (hm.symm.trans htext)
      simp only [List.length_append, List.length_cons, List.length_nil] at hlen
      omega
    · exact .inr ha
  | cons next after =>
    have hafter : textOf (next :: after) ≠ [] :=
      textOf_ne_nil (hscan.trans (List.append_cons before m (next :: after))) (List.cons_ne_nil _ _)
    obtain ⟨rest, last, hrest⟩ := (List.eq_nil_or_concat' _).resolve_left hafter
    rw [hrest, ← List.append_assoc] at hright
    obtain ⟨hright, hlast⟩ := List.append_inj' hright rfl
    obtain ⟨t, b, ht, hb⟩ : ∃ t b, m.text = t ++ [b] ∧ (b = 92 ∨ b = 32 ∨ b = 9) := by
      rcases List.eq_nil_or_concat' right with rfl | ⟨right, b, rfl⟩
      · exact ⟨left, 92, hm, .inl rfl⟩
      · exact ⟨left ++ 92 :: right, b, by rw [hm]; simp, .inr (hblanks b (by rw [hright]; simp))⟩
    cases ha : m.action with
    | comment =>
      obtain ⟨t', ht'⟩ := hread.comment ha hafter
      have hslash := List.singleton_inj.1 (List.append_inj_right' (ht.symm.trans ht') rfl)
      rw [hslash] at hb
      exact absurd hb (by decide)
    | echo => exact absurd ha hread.ne_echo
    | token kind =>
      obtain ⟨⟨p, hp, hmem⟩, hlongest⟩ := hread.token ha
      have hends : p.endsIn b = true := endsIn_of_mem (ht ▸ hmem)
      have hsat : p.isSat = true := isSat_of_blank hp <| by
        rcases hb with rfl | rfl | rfl
        · exact .inl hends
        · exact .inr (.inl hends)
        · exact .inr (.inr hends)
      -- The token is the backslash alone, although the splice would be longer.
      obtain ⟨a, hone⟩ := eq_singleton_of_isSat hsat hmem
      have hlen := congrArg List.length (hm.symm.trans hone)
      simp only [List.length_append, List.length_cons, List.length_nil] at hlen
      obtain rfl : left = [] := List.eq_nil_of_length_eq_zero (by omega)
      obtain rfl : right = [] := List.eq_nil_of_length_eq_zero (by omega)
      have hall : m.text ++ textOf (next :: after) = 92 :: (blanks ++ [10]) := by
        rw [hm, hrest, hlast, hright]
        rfl
      have hle := hlongest splicePattern _ _ spliceRule_mem (Nat.le_refl _) (by
        rw [List.take_length, hall]
        exact mem_splicePattern.2 ⟨blanks, rfl, hblanks⟩)
      rw [hall, hone, List.length_cons, List.length_append] at hle
      exact absurd hle (by simp)

end Cvise
