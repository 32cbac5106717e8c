import Cvise.CutPositions
import Cvise.MakefileReading
import Cvise.ShellWords

namespace Cvise
set_option autoImplicit true

namespace MakefileParser

open Gapped

/-- Where a token begins with the blanks before it. -/
def TextWithLoc.rangeBegin (t : TextWithLoc) : Nat :=
  (t.precedingSpacesLoc.map (·.beginPos)).getD t.loc.beginPos

variable {value : Bytes → Bytes} {ps : List (Piece UInt8)} {sel : TextWithLoc → Bool}

theorem rangeBegin_head (value : Bytes → Bytes) (pos : Nat) (p : Piece UInt8) :
    TextWithLoc.rangeBegin ⟨⟨pos + p.gap.length, pos + p.gap.length + p.raw.length⟩, value p.raw,
      if 0 < p.gap.length then some ⟨pos, pos + p.gap.length⟩ else none⟩ = pos := by
  rw [TextWithLoc.rangeBegin]
  split
  · rfl
  · rename_i hgap
    rw [Nat.eq_zero_of_not_pos hgap]
    rfl

theorem tokensAt_within (h : t ∈ tokensAt value pos ps) : pos ≤ t.rangeBegin ∧
    t.rangeBegin ≤ t.loc.endPos ∧ t.loc.endPos ≤ pos + (piecesText ps).length := by
  induction ps generalizing pos with
  | nil => cases h
  | cons p ps ih =>
    rw [length_piecesText_cons]
    rcases List.mem_cons.1 (tokensAt_cons value pos p ps ▸ h) with rfl | h
    · rw [rangeBegin_head]
      simp only
      omega
    · have hrest := ih h
      omega

/-- A token lies behind the blanks before it. -/
def TextWithLoc.Spaced (t : TextWithLoc) : Prop := t.loc.beginPos ≤ t.loc.endPos ∧
  ∀ s ∈ t.precedingSpacesLoc, s.beginPos ≤ s.endPos ∧ s.endPos = t.loc.beginPos

theorem tokensAt_spaced (h : t ∈ tokensAt value pos ps) : t.Spaced := by
  induction ps generalizing pos with
  | nil => cases h
  | cons p ps ih =>
    rcases List.mem_cons.1 (tokensAt_cons value pos p ps ▸ h) with rfl | h
    · refine ⟨Nat.le_add_right _ _, fun s hs => ?_⟩
      simp only at hs
      split at hs
      · obtain rfl := Option.some.inj hs
        exact ⟨Nat.le_add_right _ _, rfl⟩
      · cases hs
    · exact ih h

/-- Behind each token the blanks of the next one begin. -/
theorem isChain_tokensAt (value : Bytes → Bytes) (pos : Nat) (ps : List (Piece UInt8)) :
    (tokensAt value pos ps).IsChain fun t u => u.rangeBegin = t.loc.endPos := by
  induction ps generalizing pos with
  | nil => exact .nil
  | cons p ps ih =>
    rw [tokensAt_cons]
    refine List.isChain_cons.2 ⟨fun u hu => ?_, ih _⟩
    cases ps with
    | nil => cases hu
    | cons q ps =>
      rw [tokensAt_cons] at hu
      obtain rfl := Option.some.inj hu
      exact rangeBegin_head value _ q

/-- Cutting some tokens with the blanks before them leaves the text of the other ones. -/
theorem keptAt_tokens (value : Bytes → Bytes) (sel : TextWithLoc → Bool) (pos : Nat)
    (ps : List (Piece UInt8)) {keep : Nat → Bool}
    (h : ∀ i, i < (piecesText ps).length → (keep i = false ↔ ∃ t ∈ tokensAt value pos ps,
      sel t = true ∧ t.rangeBegin ≤ pos + i ∧ pos + i < t.loc.endPos)) :
    ∃ qs, List.Sublist qs ps ∧ keptAt keep (piecesText ps) = piecesText qs ∧
      qs.map (fun q => value q.raw) =
        ((tokensAt value pos ps).filter fun t => !sel t).map (·.value) := by
  induction ps generalizing pos keep with
  | nil => exact ⟨[], .slnil, rfl, rfl⟩
  | cons p ps ih =>
    have hrest := @ih (pos + p.gap.length + p.raw.length)
      (fun i => keep ((p.gap ++ p.raw).length + i)) fun i hi => by
        have hi' := h (p.gap.length + p.raw.length + i) (by rw [length_piecesText_cons]; omega)
        rw [tokensAt_cons] at hi'
        rw [List.length_append, hi', List.exists_mem_cons_iff, rangeBegin_head]
        simp only [Nat.add_assoc]
        exact or_iff_right fun hfirst => by omega
    obtain ⟨qs, hsub, htext, hvalues⟩ := hrest
    have hsplit : piecesText (p :: ps) = (p.gap ++ p.raw) ++ piecesText ps := by
      rw [piecesText_cons, List.append_assoc]
    have hfirst (i : Nat) (hi : i < (p.gap ++ p.raw).length) : keep i = false ↔
        sel ⟨⟨pos + p.gap.length, pos + p.gap.length + p.raw.length⟩, value p.raw,
          if 0 < p.gap.length then some ⟨pos, pos + p.gap.length⟩ else none⟩ = true := by
      rw [List.length_append] at hi
      rw [h i (by rw [length_piecesText_cons]; omega), tokensAt_cons, List.exists_mem_cons_iff,
        rangeBegin_head]
      constructor
      · rintro (⟨hsel, -⟩ | ⟨t, ht, -, hin⟩)
        · exact hsel
        · have hwithin := tokensAt_within ht
          omega
      · intro hsel
        refine .inl ⟨hsel, ?_⟩
        simp only
        omega
    rw [hsplit, keptAt_append, htext, tokensAt_cons]
    cases hsel : sel ⟨⟨pos + p.gap.length, pos + p.gap.length + p.raw.length⟩, value p.raw,
        if 0 < p.gap.length then some ⟨pos, pos + p.gap.length⟩ else none⟩ with
    | true =>
      refine ⟨qs, hsub.cons p, ?_, ?_⟩
      · rw [keptAt_of_none fun i hi => (hfirst i hi).2 hsel, List.nil_append]
      · rw [List.filter_cons_of_neg (by rw [hsel]; exact Bool.false_ne_true), hvalues]
    | false =>
      refine ⟨p :: qs, hsub.cons_cons p, ?_, ?_⟩
      · rw [keptAt_of_forall fun i hi => ?_, piecesText_cons, List.append_assoc]
        refine Bool.eq_true_of_not_eq_false fun hcut => ?_
        rw [(hfirst i hi).1 hcut] at hsel
        cases hsel
      · rw [List.filter_cons_of_pos (by rw [hsel]; rfl), List.map_cons, List.map_cons, hvalues]

/-- The tokens of a recipe line follow each other behind its begin. -/
structure RecipeLine.Within (r : RecipeLine) (loc : SourceLoc) : Prop where
  follows : (r.program :: r.args).IsChain fun t u => u.rangeBegin = t.loc.endPos
  within : ∀ t ∈ r.program :: r.args, loc.beginPos < t.rangeBegin ∧ t.rangeBegin ≤ t.loc.endPos ∧
    t.loc.endPos ≤ loc.endPos
  spaced : ∀ t ∈ r.program :: r.args, t.Spaced

theorem parseRecipeLine_pieces {line : TextWithLoc} (hsound : line.Sound)
    (h : parseRecipeLine line = .ok (some r)) : ∃ (p : Piece UInt8) (ps : List (Piece UInt8))
      (last : Bytes), line.value = line.value.take (recipeBegin line.value) ++
          (piecesText (p :: ps) ++ last) ∧
        ShellWords (p :: ps) last ∧ line.value.head? = some 9 ∧
        recipeBegin line.value ≤ line.value.length ∧
        r.program :: r.args =
          tokensAt unquoted (line.loc.beginPos + recipeBegin line.value) (p :: ps) := by
  rw [parseRecipeLine_eq hsound] at h
  by_cases htab : line.value.head? = some 9
  · rw [if_neg (fun hne => hne htab)] at h
    obtain ⟨ps, last, htext, hwords⟩ :=
      exists_shellWords (line.value.drop (recipeBegin line.value))
    rw [htext, shellTokens_words hwords] at h
    cases ps with
    | nil => cases h
    | cons p ps =>
      have hne : line.value.drop (recipeBegin line.value) ≠ [] := by
        rw [htext, piecesText_cons, List.append_assoc, List.append_assoc]
        exact List.append_ne_nil_of_right_ne_nil _
          (List.append_ne_nil_of_left_ne_nil hwords.2.1.ne_nil _)
      refine ⟨p, ps, last, ?_, hwords, htab, ?_, ?_⟩
      · rw [← htext, List.take_append_drop]
      · by_contra hlong
        exact hne (List.drop_eq_nil_of_le (Nat.le_of_not_le hlong))
      · rw [tokensAt_cons] at h ⊢
        obtain rfl := Option.some.inj (Except.ok.inj h)
        rfl
  · rw [if_pos htab] at h
    cases h

theorem recipeBegin_pos (line : Bytes) : 0 < recipeBegin line := by
  rw [recipeBegin]
  split
  · exact Nat.two_pos
  · exact Nat.one_pos

theorem parseRecipeLine_within {line : TextWithLoc} (hsound : line.Sound)
    (h : parseRecipeLine line = .ok (some r)) : r.Within line.loc := by
  obtain ⟨p, ps, last, htext, -, -, hle, htoks⟩ := parseRecipeLine_pieces hsound h
  refine ⟨htoks ▸ isChain_tokensAt _ _ _, fun t ht => ?_, fun t ht => tokensAt_spaced (htoks ▸ ht)⟩
  have hwithin := tokensAt_within (htoks ▸ ht)
  have hpos := recipeBegin_pos line.value
  have hlength := congrArg List.length htext
  rw [List.length_append, List.length_append, List.length_take_of_le hle] at hlength
  rw [TextWithLoc.Sound] at hsound
  omega

theorem recipeBegin_congr {line line' : Bytes} (h : (line.drop 1).head? = (line'.drop 1).head?) :
    recipeBegin line = recipeBegin line' := by
  rw [recipeBegin, recipeBegin, h]

theorem recipeWords_cut (sel : TextWithLoc → Bool) {line : TextWithLoc} (hsound : line.Sound)
    (h : parseRecipeLine line = .ok (some r)) {keep : Nat → Bool}
    (hkeep : ∀ i, i < line.value.length → (keep i = false ↔ ∃ a ∈ r.args, sel a = true ∧
      a.rangeBegin ≤ line.loc.beginPos + i ∧ line.loc.beginPos + i < a.loc.endPos)) :
    recipeWords (keptAt keep line.value) =
      some (RecipeLine.words (fun r => r.args.filter fun a => !sel a) r) := by
  obtain ⟨p, ps, last, htext, hwords, htab, hle, htoks⟩ := parseRecipeLine_pieces hsound h
  rw [tokensAt_cons] at htoks
  obtain ⟨hprogram, hargs⟩ := List.cons.inj htoks
  have hlength := congrArg List.length htext
  rw [List.length_append, List.length_append, List.length_take_of_le hle, length_piecesText_cons]
    at hlength
  generalize hpre : line.value.take (recipeBegin line.value) = pre at htext
  have hprelen : pre.length = recipeBegin line.value := by
    rw [← hpre, List.length_take_of_le hle]
  rw [← hprelen] at hargs hlength
  have hwithin {a : TextWithLoc} (ha : a ∈ r.args) := tokensAt_within (hargs ▸ ha)
  have hsplit : line.value = (pre ++ (p.gap ++ p.raw)) ++ (piecesText ps ++ last) := by
    rw [htext, piecesText_cons]
    simp only [List.append_assoc]
  have hfront : (pre ++ (p.gap ++ p.raw)).length = pre.length + p.gap.length + p.raw.length := by
    rw [List.length_append, List.length_append, Nat.add_assoc]
  have hrange (i : Nat) (hi : i < (piecesText ps).length) :
      keep ((pre ++ (p.gap ++ p.raw)).length + i) = false ↔ ∃ t ∈ tokensAt unquoted
        (line.loc.beginPos + pre.length + p.gap.length + p.raw.length) ps, sel t = true ∧
          t.rangeBegin ≤ line.loc.beginPos + pre.length + p.gap.length + p.raw.length + i ∧
          line.loc.beginPos + pre.length + p.gap.length + p.raw.length + i < t.loc.endPos := by
    rw [hfront, hkeep _ (by omega), hargs]
    simp only [Nat.add_assoc]
  obtain ⟨qs, hsub, hqs, hvalues⟩ := keptAt_tokens unquoted sel _ ps hrange
  -- The command itself and what follows the arguments stay.
  have hkept : keptAt keep line.value = pre ++ (piecesText (p :: qs) ++ last) := by
    have hstay {i : Nat} (hi : i < line.value.length)
        (hout : i < pre.length + p.gap.length + p.raw.length ∨
          pre.length + p.gap.length + p.raw.length + (piecesText ps).length ≤ i) :
        keep i = true := by
      refine Bool.eq_true_of_not_eq_false fun hcut => ?_
      obtain ⟨a, ha, -, hin⟩ := (hkeep i hi).1 hcut
      have hwithin := hwithin ha
      omega
    have hcommand : keptAt keep (pre ++ (p.gap ++ p.raw)) = pre ++ (p.gap ++ p.raw) := by
      refine keptAt_of_forall fun i hi => ?_
      rw [hfront] at hi
      exact hstay (by omega) (.inl hi)
    have hlast : keptAt (fun i => keep ((pre ++ (p.gap ++ p.raw)).length +
        ((piecesText ps).length + i))) last = last := by
      refine keptAt_of_forall fun i hi => ?_
      rw [hfront]
      exact hstay (by omega) (.inr (by omega))
    rw [hsplit, keptAt_append _ (pre ++ (p.gap ++ p.raw)), hcommand,
      keptAt_append _ (piecesText ps), hqs, hlast, piecesText_cons]
    simp only [List.append_assoc]
  have hnext (rs : List (Piece UInt8)) : ((pre ++ (piecesText (p :: rs) ++ last)).drop 1).head? =
      (pre.drop 1 ++ (p.gap ++ p.raw)).head? := by
    have hpos := recipeBegin_pos line.value
    rw [List.drop_append_of_le_length (by omega), piecesText_cons, ← List.append_assoc p.gap,
      List.append_assoc (p.gap ++ p.raw), ← List.append_assoc, List.head?_append_of_ne_nil]
    exact List.append_ne_nil_of_right_ne_nil _
      (List.append_ne_nil_of_right_ne_nil _ hwords.2.1.ne_nil)
  have hbegin : recipeBegin (pre ++ (piecesText (p :: qs) ++ last)) = pre.length := by
    rw [hprelen]
    refine recipeBegin_congr ?_
    rw [hnext, ← hnext ps, ← htext]
  have hhead : (pre ++ (piecesText (p :: qs) ++ last)).head? = some 9 := by
    have hne : pre ≠ [] := by
      have hpos := recipeBegin_pos line.value
      exact List.length_pos_iff.1 (by omega)
    rw [htext, List.head?_append_of_ne_nil _ hne] at htab
    rw [List.head?_append_of_ne_nil _ hne, htab]
  rw [hkept, recipeWords, if_neg (fun hne => hne hhead), hbegin, List.drop_left,
    shellTokens_words (hwords.sublist hsub), tokensAt_cons, List.map_cons, RecipeLine.words, hargs,
    hprogram]
  have hall (pos : Nat) : (tokensAt unquoted pos qs).map (·.value) =
      qs.map fun q => unquoted q.raw := by
    clear hqs hvalues hsub hkept hbegin hhead
    induction qs generalizing pos with
    | nil => rfl
    | cons q qs ih => rw [tokensAt_cons, List.map_cons, List.map_cons, ih]
  rw [hall, hvalues]

end MakefileParser

end Cvise
