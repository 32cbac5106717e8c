import Mathlib.Data.List.TakeWhile

namespace Cvise
set_option autoImplicit true

/-- A token of a text, with the gap before it. -/
structure Piece (α : Type) where
  gap : List α
  raw : List α

/-- Where a piece lies in a text. -/
structure PiecePlace where
  gapBegin : Nat
  tokBegin : Nat
  tokEnd : Nat
deriving DecidableEq

namespace Gapped

variable {α : Type}

def piecesText (ps : List (Piece α)) : List α := ps.flatMap fun p => p.gap ++ p.raw

/-- The places of pieces that follow each other from a position on. -/
def places (pos : Nat) : List (Piece α) → List PiecePlace
  | [] => []
  | p :: ps =>
    ⟨pos, pos + p.gap.length, pos + p.gap.length + p.raw.length⟩ ::
      places (pos + p.gap.length + p.raw.length) ps

/-- Pieces with a rest behind them, where a token may depend on what follows it. -/
def Parsed (isGap : α → Bool) (IsToken : List α → List α → Prop) :
    List (Piece α) → List α → Prop
  | [], last => ∀ a ∈ last, isGap a = true
  | p :: ps, last => (∀ a ∈ p.gap, isGap a = true) ∧ IsToken p.raw (piecesText ps ++ last) ∧
      Parsed isGap IsToken ps last

/-- A run of letters that are not of gaps. -/
def IsRun (isGap : α → Bool) (raw : List α) : Prop := raw ≠ [] ∧ ∀ a ∈ raw, isGap a = false

theorem piecesText_cons (p : Piece α) (ps : List (Piece α)) :
    piecesText (p :: ps) = p.gap ++ (p.raw ++ piecesText ps) := by
  rw [piecesText, List.flatMap_cons, List.append_assoc]
  rfl

theorem length_piecesText_cons (p : Piece α) (ps : List (Piece α)) :
    (piecesText (p :: ps)).length = p.gap.length + p.raw.length + (piecesText ps).length := by
  rw [piecesText_cons, List.length_append, List.length_append, Nat.add_assoc]

theorem head_dropWhile_gap {isGap : α → Bool} {text : List α}
    (h : text.dropWhile isGap = c :: rest) : isGap c = false := by
  have hhead := List.head?_dropWhile_not isGap text
  rw [h] at hhead
  simpa using hhead

/-- Every text falls into pieces, where some token begins with each letter that is not of a gap. -/
theorem exists_parsed {isGap : α → Bool} {IsToken : List α → List α → Prop} (hstep : ∀ c rest, isGap c = false →
      ∃ raw tail, (c : α) :: rest = raw ++ tail ∧ raw ≠ [] ∧ IsToken raw tail) (text : List α) :
    ∃ ps last, text = piecesText ps ++ last ∧ Parsed isGap IsToken ps last := by
  induction hn : text.length using Nat.strong_induction_on generalizing text with
  | _ n ih =>
    have hgap : ∀ a ∈ text.takeWhile isGap, isGap a = true := fun a ha => List.mem_takeWhile_imp ha
    have hsplit := List.takeWhile_append_dropWhile (p := isGap) (l := text)
    cases hrest : text.dropWhile isGap with
    | nil =>
      rw [hrest, List.append_nil] at hsplit
      exact ⟨[], text, rfl, hsplit ▸ hgap⟩
    | cons c rest =>
      obtain ⟨raw, tail, htail, hne, htok⟩ := hstep c rest (head_dropWhile_gap hrest)
      have hless : tail.length < n := by
        have hpos := List.length_pos_iff.2 hne
        have hlength := congrArg List.length hsplit
        rw [hrest, htail, List.length_append, List.length_append] at hlength
        omega
      obtain ⟨ps, last, rfl, hps⟩ := ih _ hless tail rfl
      refine ⟨⟨text.takeWhile isGap, raw⟩ :: ps, last, ?_, hgap, htok, hps⟩
      rw [piecesText_cons, List.append_assoc, List.append_assoc, ← htail, ← hrest]
      exact hsplit.symm

theorem exists_runs (isGap : α → Bool) (text : List α) : ∃ ps last, text = piecesText ps ++ last ∧
    Parsed isGap (fun raw tail => IsRun isGap raw ∧ ∀ d ∈ tail.head?, isGap d = true) ps last := by
  refine exists_parsed (fun c rest hc => ?_) text
  refine ⟨(c :: rest).takeWhile fun a => !isGap a, (c :: rest).dropWhile fun a => !isGap a,
    List.takeWhile_append_dropWhile.symm, ?_, ⟨?_, fun a ha => ?_⟩, fun d hd => ?_⟩
  · rw [List.takeWhile_cons_of_pos (by rw [hc]; rfl)]
    exact List.cons_ne_nil _ _
  · rw [List.takeWhile_cons_of_pos (by rw [hc]; rfl)]
    exact List.cons_ne_nil _ _
  · have hnot := List.mem_takeWhile_imp ha
    simpa using hnot
  · have hhead := List.head?_dropWhile_not (fun a => !isGap a) (c :: rest)
    rw [Option.mem_def.1 hd] at hhead
    simpa using hhead

end Gapped

end Cvise
