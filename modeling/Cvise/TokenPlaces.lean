import Cvise.GappedText
import Cvise.ShellFields

namespace Cvise
set_option autoImplicit true

namespace MakefileParser

open Gapped

def tokenAt (value : Bytes → Bytes) (p : Piece UInt8) (q : PiecePlace) : TextWithLoc where
  loc := ⟨q.tokBegin, q.tokEnd⟩
  value := value p.raw
  precedingSpacesLoc := if q.gapBegin < q.tokBegin then some ⟨q.gapBegin, q.tokBegin⟩ else none

/-- The tokens of pieces that follow each other from a position on. -/
def tokensAt (value : Bytes → Bytes) (pos : Nat) (ps : List (Piece UInt8)) : List TextWithLoc :=
  List.zipWith (tokenAt value) ps (places pos ps)

theorem tokensAt_cons (value : Bytes → Bytes) (pos : Nat) (p : Piece UInt8)
    (ps : List (Piece UInt8)) : tokensAt value pos (p :: ps) =
      ⟨⟨pos + p.gap.length, pos + p.gap.length + p.raw.length⟩, value p.raw,
        if 0 < p.gap.length then some ⟨pos, pos + p.gap.length⟩ else none⟩ ::
      tokensAt value (pos + p.gap.length + p.raw.length) ps := by
  have hlt : pos < pos + p.gap.length ↔ 0 < p.gap.length := by omega
  rw [tokensAt, places, List.zipWith_cons_cons, tokenAt]
  simp only [hlt]
  rfl

theorem find_gap {text gap raw rest : Bytes} (hdrop : text.drop start = gap ++ (raw ++ rest))
    (hgap : ∀ b ∈ gap, isSpaceByte b = true) (hraw : IsRun isSpaceByte raw)
    (hstart : start ≤ text.length) : find text raw start = some (start + gap.length) := by
  obtain ⟨b, raw, rfl⟩ := List.exists_cons_of_ne_nil hraw.1
  have hb := hraw.2 b List.mem_cons_self
  have hlength := congrArg List.length hdrop
  simp only [List.length_drop, List.length_append, List.length_cons] at hlength
  have hsplit : text.length + 1 - start = gap.length + (text.length + 1 - start - gap.length) := by
    omega
  have hnot : ∀ i ∈ List.range' start gap.length, ((b :: raw).isPrefixOf (text.drop i)) = false := by
    intro i hi
    obtain ⟨hle, hlt⟩ := List.mem_range'_1.1 hi
    have hat : text.drop i = gap.drop (i - start) ++ (b :: raw ++ rest) := by
      rw [← List.drop_append_of_le_length (by omega), ← hdrop, List.drop_drop]
      congr 1
      omega
    obtain ⟨c, gap', hc⟩ := List.exists_cons_of_ne_nil (l := gap.drop (i - start)) (by
      intro he
      have := congrArg List.length he
      rw [List.length_drop, List.length_nil] at this
      omega)
    have hspace := hgap c (List.mem_of_mem_drop (hc ▸ List.mem_cons_self))
    rw [hat, hc, List.cons_append]
    refine Bool.eq_false_iff.2 fun h => ?_
    have heq := (List.cons_prefix_cons.1 (List.isPrefixOf_iff_prefix.1 h)).1
    rw [heq, hspace] at hb
    cases hb
  obtain ⟨k, hk⟩ : ∃ k, text.length + 1 - start - gap.length = k + 1 :=
    Nat.exists_eq_add_one_of_ne_zero (by omega)
  have hhere : (b :: raw).isPrefixOf (text.drop (start + gap.length)) = true := by
    rw [← List.drop_drop, hdrop, List.drop_left]
    exact List.isPrefixOf_iff_prefix.2 (List.prefix_append _ _)
  rw [find, hsplit, ← List.range'_append_1, List.find?_append, hk, List.range'_succ,
    List.find?_cons_of_pos (p := fun i => (b :: raw).isPrefixOf (text.drop i)) hhere]
  rw [List.find?_eq_none.2 fun i hi => by rw [hnot i hi]; exact Bool.false_ne_true]
  rfl

/-- The text lies where it says. -/
def TextWithLoc.Sound (text : TextWithLoc) : Prop :=
  text.loc.endPos = text.loc.beginPos + text.value.length

theorem TextWithLoc.substr_to {text : TextWithLoc} (h : text.Sound) (hb : b ≤ e)
    (he : e ≤ text.value.length) : text.substr b (some e) =
      .ok ⟨⟨text.loc.beginPos + b, text.loc.beginPos + e⟩, (text.value.take e).drop b, none⟩ := by
  rw [TextWithLoc.Sound] at h
  rw [substr, if_neg (by omega), if_neg]
  rintro ⟨-, hnot⟩
  omega

theorem TextWithLoc.substr_from {text : TextWithLoc} (h : text.Sound) (hb : b ≤ text.value.length) :
    text.substr b = .ok ⟨⟨text.loc.beginPos + b, text.loc.endPos⟩, text.value.drop b, none⟩ := by
  rw [TextWithLoc.Sound] at h
  rw [substr, if_neg (by omega), if_neg fun hnot => hnot.1 rfl]

theorem splitBytes_gap (h : ∀ b ∈ gap, isSpaceByte b = true) (rest : Bytes) :
    splitBytes (gap ++ rest) = splitBytes rest := by
  induction gap with
  | nil => rfl
  | cons b gap ih =>
    obtain ⟨hb, hgap⟩ := List.forall_mem_cons.1 h
    rw [List.cons_append, splitBytes, if_pos hb, ih hgap]

theorem splitBytes_run (h : IsRun isSpaceByte raw) (hend : ∀ d ∈ rest.head?, isSpaceByte d = true) :
    splitBytes (raw ++ rest) = raw :: splitBytes rest := by
  have hraw : ∀ b ∈ raw, (!isSpaceByte b) = true := fun b hb => by
    rw [h.2 b hb]
    rfl
  have hrest : rest.takeWhile (fun c => !isSpaceByte c) = [] ∧
      rest.dropWhile (fun c => !isSpaceByte c) = rest := by
    cases rest with
    | nil => exact ⟨rfl, rfl⟩
    | cons d rest =>
      have hd := hend d rfl
      exact ⟨List.takeWhile_cons_of_neg (by simp [hd]), List.dropWhile_cons_of_neg (by simp [hd])⟩
  have htake : (raw ++ rest).takeWhile (fun c => !isSpaceByte c) = raw := by
    rw [List.takeWhile_append_of_pos hraw, hrest.1, List.append_nil]
  have hdrop : (raw ++ rest).dropWhile (fun c => !isSpaceByte c) = rest := by
    rw [List.dropWhile_append_of_pos hraw, hrest.2]
  obtain ⟨b, tail, rfl⟩ := List.exists_cons_of_ne_nil h.1
  have hb := h.2 b List.mem_cons_self
  rw [List.cons_append] at htake hdrop ⊢
  rw [splitBytes, if_neg (by simp [hb]), htake]
  rw [List.dropWhile_cons_of_pos (by simp [hb])] at hdrop
  rw [hdrop]

/-- Words, each with a blank or the end behind it. -/
def Words (ps : List (Piece UInt8)) (last : Bytes) : Prop :=
  Parsed isSpaceByte (fun raw tail => IsRun isSpaceByte raw ∧ ∀ d ∈ tail.head?, isSpaceByte d = true)
    ps last

theorem splitBytes_words (h : Words ps last) : splitBytes (piecesText ps ++ last) = ps.map (·.raw) := by
  induction ps with
  | nil =>
    have hlast : splitBytes (last ++ []) = splitBytes [] := splitBytes_gap h []
    rw [List.append_nil] at hlast
    exact hlast.trans splitBytes.eq_1
  | cons p ps ih =>
    obtain ⟨hgap, ⟨hraw, hend⟩, hps⟩ := h
    rw [piecesText_cons, List.append_assoc, List.append_assoc, splitBytes_gap hgap,
      splitBytes_run hraw hend, ih hps, List.map_cons]

theorem locateWords_words {text : TextWithLoc} (hsound : text.Sound)
    (hdrop : text.value.drop start = piecesText ps ++ last) (hstart : start ≤ text.value.length)
    (h : Words ps last) : locateWords text start (ps.map (·.raw)) =
      .ok (tokensAt id (text.loc.beginPos + start) ps) := by
  induction ps generalizing start with
  | nil => rfl
  | cons p ps ih =>
    obtain ⟨hgap, ⟨hraw, hend⟩, hps⟩ := h
    rw [piecesText_cons, List.append_assoc, List.append_assoc] at hdrop
    have hlength := congrArg List.length hdrop
    rw [List.length_drop, List.length_append, List.length_append] at hlength
    have hdrop' : text.value.drop (start + p.gap.length + p.raw.length) = piecesText ps ++ last := by
      rw [← List.drop_drop, ← List.drop_drop, hdrop, List.drop_left, List.drop_left]
    have hvalue : (text.value.take (start + p.gap.length + p.raw.length)).drop
        (start + p.gap.length) = p.raw := by
      rw [List.drop_take, ← List.drop_drop, hdrop, List.drop_left, Nat.add_sub_cancel_left,
        List.take_left]
    rw [List.map_cons, locateWords, find_gap hdrop hgap hraw hstart]
    have hsub := TextWithLoc.substr_to hsound (Nat.le_add_right (start + p.gap.length) p.raw.length) (by omega)
    rw [hvalue] at hsub
    simp only [hsub]
    have hrest := ih hdrop' (by omega) hps
    have hlt : start + p.gap.length > start ↔ 0 < p.gap.length := by omega
    rw [← Nat.add_assoc, ← Nat.add_assoc] at hrest
    show (locateWords text (start + p.gap.length + p.raw.length) (ps.map Piece.raw) >>= _) = _
    rw [hrest, tokensAt_cons]
    simp only [hlt, ← Nat.add_assoc]
    split
    · rfl
    · rfl

end MakefileParser

end Cvise
