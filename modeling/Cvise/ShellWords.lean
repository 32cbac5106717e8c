import Cvise.TokenPlaces

namespace Cvise
set_option autoImplicit true

namespace MakefileParser

open Gapped

/-- A token of a command line begins with no blank, and reading it stops before what follows. -/
def IsShellToken (raw tail : Bytes) : Prop :=
  (∃ c ∈ raw.head?, isShellSpace c = false) ∧ (scanToken none (raw ++ tail)).2 = raw.length

/-- The pieces of a command line. -/
def ShellWords (ps : List (Piece UInt8)) (last : Bytes) : Prop :=
  Parsed isShellSpace IsShellToken ps last

/-- The value of a token. -/
def unquoted (raw : Bytes) : Bytes := (scanToken none raw).1

theorem scanToken_le (q : Option UInt8) (text : Bytes) : (scanToken q text).2 ≤ text.length := by
  induction text generalizing q with
  | nil => simp [scanToken]
  | cons c rest ih =>
    rw [scanToken_cons]
    split
    · exact Nat.succ_le_succ (ih none)
    · split
      · exact Nat.succ_le_succ (ih (some c))
      · split
        · exact Nat.zero_le _
        · exact Nat.succ_le_succ (ih q)

theorem scanToken_stop {raw tail : Bytes} (h : (scanToken q (raw ++ tail)).2 = raw.length) :
    ∀ d ∈ tail.head?, isShellSpace d = true := by
  induction raw generalizing q with
  | nil =>
    intro d hd
    obtain ⟨rest, rfl⟩ := List.head?_eq_some_iff.1 hd
    rw [List.nil_append, scanToken_cons] at h
    split at h
    · cases h
    · split at h
      · cases h
      · split at h
        · rename_i hspace
          exact hspace.1
        · cases h
  | cons c raw ih =>
    rw [List.cons_append, scanToken_cons] at h
    split at h
    · exact ih (Nat.succ.inj h)
    · split at h
      · exact ih (Nat.succ.inj h)
      · split at h
        · cases h
        · exact ih (Nat.succ.inj h)

theorem scanToken_value {raw tail : Bytes} (h : (scanToken q (raw ++ tail)).2 = raw.length) :
    (scanToken q (raw ++ tail)).1 = (scanToken q raw).1 := by
  induction raw generalizing q with
  | nil =>
    cases tail with
    | nil => rfl
    | cons d rest =>
      rw [List.nil_append, scanToken_cons] at h ⊢
      split at h
      · cases h
      · split at h
        · cases h
        · split at h
          · rename_i hend hbegin hspace
            rw [if_neg hend, if_neg hbegin, if_pos hspace, scanToken]
          · cases h
  | cons c raw ih =>
    rw [List.cons_append, scanToken_cons] at h ⊢
    rw [scanToken_cons]
    split at h
    · rename_i hend
      rw [if_pos hend, if_pos hend, ih (Nat.succ.inj h)]
    · split at h
      · rename_i hend hbegin
        rw [if_neg hend, if_pos hbegin, if_neg hend, if_pos hbegin, ih (Nat.succ.inj h)]
      · split at h
        · cases h
        · rename_i hend hbegin hspace
          rw [if_neg hend, if_neg hbegin, if_neg hspace, if_neg hend, if_neg hbegin, if_neg hspace,
            ih (Nat.succ.inj h)]

/-- A token that something follows may as well be followed by any blank, or by nothing. -/
theorem scanToken_retail {raw tail tail' : Bytes}
    (h : (scanToken q (raw ++ tail)).2 = raw.length) (hne : tail ≠ [])
    (htail : ∀ d ∈ tail'.head?, isShellSpace d = true) :
    (scanToken q (raw ++ tail')).2 = raw.length := by
  induction raw generalizing q with
  | nil =>
    obtain ⟨d, rest, rfl⟩ := List.exists_cons_of_ne_nil hne
    rw [List.nil_append, scanToken_cons] at h
    cases tail' with
    | nil => simp [scanToken]
    | cons d' rest' =>
      have hspace := htail d' rfl
      have hquote : ¬ (d' = 34 ∨ d' = 39) := by
        rintro (rfl | rfl)
        · exact absurd hspace (by decide)
        · exact absurd hspace (by decide)
      split at h
      · cases h
      · split at h
        · cases h
        · split at h
          · rename_i hnone
            rw [List.nil_append, scanToken_cons, if_neg fun hq => hquote hq.1,
              if_neg fun hq => hquote hq.1, if_pos ⟨hspace, hnone.2⟩]
            rfl
          · cases h
  | cons c raw ih =>
    rw [List.cons_append, scanToken_cons] at h ⊢
    split at h
    · rename_i hend
      rw [if_pos hend]
      exact congrArg (· + 1) (ih (Nat.succ.inj h))
    · split at h
      · rename_i hend hbegin
        rw [if_neg hend, if_pos hbegin]
        exact congrArg (· + 1) (ih (Nat.succ.inj h))
      · split at h
        · cases h
        · rename_i hend hbegin hspace
          rw [if_neg hend, if_neg hbegin, if_neg hspace]
          exact congrArg (· + 1) (ih (Nat.succ.inj h))

theorem IsShellToken.ne_nil (h : IsShellToken raw tail) : raw ≠ [] := by
  obtain ⟨c, hc, -⟩ := h.1
  exact List.ne_nil_of_mem (List.mem_of_mem_head? hc)

theorem exists_shellWords (text : Bytes) :
    ∃ ps last, text = piecesText ps ++ last ∧ ShellWords ps last := by
  refine exists_parsed (fun c rest hc => ?_) text
  have hpos := scanToken_pos hc rest
  have hle := scanToken_le none (c :: rest)
  refine ⟨(c :: rest).take (scanToken none (c :: rest)).2,
    (c :: rest).drop (scanToken none (c :: rest)).2, (List.take_append_drop _ _).symm, ?_, ?_, ?_⟩
  · refine List.length_pos_iff.1 ?_
    rwa [List.length_take_of_le hle]
  · obtain ⟨n, hn⟩ := Nat.exists_eq_add_one_of_ne_zero hpos.ne'
    exact ⟨c, by rw [hn]; rfl, hc⟩
  · rw [List.take_append_drop, List.length_take_of_le hle]

theorem shellTokens_words (h : ShellWords ps last) (pos : Nat) :
    shellTokens pos (piecesText ps ++ last) = tokensAt unquoted pos ps := by
  induction ps generalizing pos with
  | nil =>
    refine shellTokens_nil (List.dropWhile_eq_nil_iff.2 h) pos
  | cons p ps ih =>
    obtain ⟨hgap, htok, hps⟩ := h
    obtain ⟨c, hc, hblank⟩ := htok.1
    obtain ⟨rest, hraw⟩ := List.head?_eq_some_iff.1 hc
    have htext : piecesText (p :: ps) ++ last = p.gap ++ (p.raw ++ (piecesText ps ++ last)) := by
      rw [piecesText_cons, List.append_assoc, List.append_assoc]
    have hdrop : (piecesText (p :: ps) ++ last).dropWhile isShellSpace =
        c :: (rest ++ (piecesText ps ++ last)) := by
      rw [htext, List.dropWhile_append_of_pos hgap, hraw, List.cons_append,
        List.dropWhile_cons_of_neg (by rw [hblank]; exact Bool.false_ne_true)]
    have htake : (piecesText (p :: ps) ++ last).takeWhile isShellSpace = p.gap := by
      rw [htext, List.takeWhile_append_of_pos hgap, hraw, List.cons_append,
        List.takeWhile_cons_of_neg (by rw [hblank]; exact Bool.false_ne_true), List.append_nil]
    have hscan : scanToken none (c :: (rest ++ (piecesText ps ++ last))) =
        (unquoted p.raw, p.raw.length) := by
      rw [← List.cons_append, ← hraw]
      exact Prod.ext (scanToken_value htok.2) htok.2
    rw [shellTokens_cons hdrop, htake, hscan, tokensAt_cons, ← List.cons_append, ← hraw,
      List.drop_left, ih hps]

/-- Taking tokens out leaves the others what they are, as long as the first one stays. -/
theorem ShellWords.sublist {p : Piece UInt8} (h : ShellWords (p :: ps) last)
    (hsub : List.Sublist qs ps) :
    ShellWords (p :: qs) last := by
  induction hsub generalizing p with
  | slnil => exact h
  | cons a hsub ih =>
    obtain ⟨hgap, htok, hps⟩ := h
    obtain ⟨-, htoka, hqs⟩ := ih hps
    refine ⟨hgap, ⟨htok.1, scanToken_retail htok.2 ?_ (scanToken_stop htoka.2)⟩, hqs⟩
    rw [piecesText_cons, List.append_assoc, List.append_assoc]
    exact List.append_ne_nil_of_right_ne_nil _ (List.append_ne_nil_of_left_ne_nil htoka.ne_nil _)
  | cons_cons a hsub ih =>
    obtain ⟨hgap, htok, hps⟩ := h
    have hqs := ih hps
    have hne := hqs.2.1.ne_nil
    have hhead (rs : List (Piece UInt8)) :
        (piecesText (a :: rs) ++ last).head? = (a.gap ++ a.raw).head? := by
      rw [piecesText_cons, ← List.append_assoc, List.append_assoc,
        List.head?_append_of_ne_nil _ (List.append_ne_nil_of_right_ne_nil _ hne)]
    refine ⟨hgap, ⟨htok.1, scanToken_retail htok.2 ?_ ?_⟩, hqs⟩
    · rw [piecesText_cons, List.append_assoc, List.append_assoc]
      exact List.append_ne_nil_of_right_ne_nil _ (List.append_ne_nil_of_left_ne_nil hne _)
    · rw [hhead, ← hhead]
      exact scanToken_stop htok.2

end MakefileParser

end Cvise
