import Cvise.SubtractedEdits

namespace Cvise
set_option autoImplicit true

variable {bundles : List HintBundle} {b b' : HintBundle} {paths : PathToPatches}
  {source dest final : TestCase} {edits : List Edit}

/-- The positions that the edits leave alone. -/
def stays (edits : List Edit) (i : Nat) : Bool := ¬ ∃ e ∈ edits, e.left ≤ i ∧ i < e.right

theorem stays_append (a c : List Edit) (i : Nat) : stays (a ++ c) i = (stays a i && stays c i) := by
  simp only [stays, List.mem_append, or_and_right, exists_or, not_or, Bool.decide_and]

theorem sortedSpans_text (h : ∀ e ∈ edits, e.text = []) : ∀ x ∈ sortedSpans edits, id x.val = [] := by
  intro x hx
  obtain ⟨e, he, rfl⟩ := List.mem_map.1 hx
  exact h e ((List.mem_insertionSort _).1 he)

theorem stays_eq (edits : List Edit) :
    (fun i => decide ¬ Covered (sortedSpans edits) i) = stays edits := by
  funext i
  rw [stays, decide_eq_decide, covered_sortedSpans]

theorem editedFile_deletions (h : ∀ e ∈ edits, e.text = []) :
    editedFile data edits = keptAt (stays edits) data := by
  rw [← stays_eq]
  exact rewriteSpans_deletions (sortedSpans_text h)

/-- No patch inserts anything. -/
def HintBundle.Deletes (b : HintBundle) : Prop := ∀ h ∈ b.hints, ∀ p ∈ h.patches, p.value = none

theorem editsAt_text (h : b.Deletes) (path : RelPath) : ∀ e ∈ b.editsAt path, e.text = [] := by
  intro e he
  obtain ⟨p, hp, rfl⟩ := List.mem_map.1 he
  obtain ⟨g, hg, hp⟩ := List.mem_flatMap.1 (List.mem_filter.1 hp).1
  rw [HintBundle.editOf, h g hg p hp]
  rfl

theorem flatMap_editsAt_text (h : ∀ b ∈ bundles, b.Deletes) (path : RelPath) :
    ∀ e ∈ bundles.flatMap (·.editsAt path), e.text = [] := by
  intro e he
  obtain ⟨b, hb, he⟩ := List.mem_flatMap.1 he
  exact editsAt_text (h b hb) path e he

/-- The ranges of deletions, moved to where the kept positions go, delete what they did before. -/
theorem stays_moved (a c : List Edit) {i : Nat} (hi : stays a i = true) :
    stays ((c.map (Edit.moved (rank (stays a)))).filter fun e => e.left < e.right)
      (rank (stays a) i) = stays c i := by
  rw [stays, stays, decide_eq_decide, not_iff_not]
  constructor
  · rintro ⟨e', he', hl, hr⟩
    obtain ⟨e, he, rfl⟩ := List.mem_map.1 (List.mem_filter.1 he').1
    exact ⟨e, he, (rank_le_rank_iff hi).1 hl, (rank_lt_rank_iff hi).1 hr⟩
  · rintro ⟨e, he, hl, hr⟩
    have hl' := (rank_le_rank_iff hi).2 hl
    have hr' := (rank_lt_rank_iff hi).2 hr
    refine ⟨e.moved (rank (stays a)), List.mem_filter.2 ⟨List.mem_map_of_mem he, ?_⟩, hl', hr'⟩
    exact decide_eq_true (hl'.trans_lt hr')

theorem editedFile_moved {a c : List Edit} (ha : ∀ e ∈ a, e.text = []) (hc : ∀ e ∈ c, e.text = []) :
    editedFile (editedFile data a)
        ((c.map (Edit.moved (rank (stays a)))).filter fun e => e.left < e.right) =
      editedFile data (a ++ c) := by
  have hmoved : ∀ e ∈ (c.map (Edit.moved (rank (stays a)))).filter fun e => e.left < e.right,
      e.text = [] := by
    intro e' he'
    obtain ⟨e, he, rfl⟩ := List.mem_map.1 (List.mem_filter.1 he').1
    exact hc e he
  have happend : ∀ e ∈ a ++ c, e.text = [] := by
    intro e he
    exact (List.mem_append.1 he).elim (ha e) (hc e)
  rw [editedFile_deletions ha, editedFile_deletions hmoved, editedFile_deletions happend,
    keptAt_keptAt]
  congr 1
  funext i
  rw [stays_append]
  cases hi : stays a i with
  | false => rfl
  | true => rw [Bool.true_and, Bool.true_and, stays_moved a c hi]

theorem newPosition_deletions (hfits : ∀ b ∈ bundles, b.Fits source)
    (hc : collectPatches bundles = .ok paths) (hdel : ∀ b ∈ bundles, b.Deletes)
    (hf : source.HasFile path data) (hq : q ≤ data.length) : newPosition bundles paths path q =
      rank (stays (bundles.flatMap (·.editsAt path))) q := by
  have htext := flatMap_editsAt_text hdel path
  have hspans := sortedSpans_text htext
  rw [newPosition_cells hfits hc hf hq fun _ => htext, length_deletions hspans hq,
    groupText_deletions hspans, stays_eq]
  simp

/-- `hints[i:j]`. -/
def HintBundle.slice (b : HintBundle) (i j : Nat) : HintBundle :=
  { b with hints := (b.hints.drop i).take (j - i) }

theorem HintBundle.slice_subset (b : HintBundle) (i j : Nat) : (b.slice i j).hints ⊆ b.hints :=
  fun _ hh => List.mem_of_mem_drop (List.mem_of_mem_take hh)

theorem HintBundle.Fits.slice (h : b.Fits source) (i j : Nat) : (b.slice i j).Fits source := by
  intro g hg p hp
  obtain ⟨path, data, hpath, hfile, hwithin⟩ := h g (b.slice_subset i j hg) p hp
  exact ⟨path, data, hpath, hfile, { hwithin with }⟩

section deletions

variable (hfits : ∀ b ∈ bundles, b.Fits source) (hdel : ∀ b ∈ bundles, b.Deletes)
  (hc : collectPatches bundles = .ok paths) (hdest : Edited bundles source dest)
  (hb : b.Fits source) (hbdel : b.Deletes)
include hfits hdel hc hdest hb hbdel

omit hbdel in
theorem fits_deletions :
    HintBundle.Fits { b with hints := b.hints.map (movedHint b (newPosition bundles paths)) }
      dest := by
  apply fits_moved hdest hb
  intro path data hfile e he
  obtain ⟨hle, hre⟩ := editsAt_within hb hfile e he
  rw [newPosition_deletions hfits hc hdel hfile hre,
    newPosition_deletions hfits hc hdel hfile (hle.trans hre),
    editedFile_deletions (flatMap_editsAt_text hdel path), length_keptAt]
  exact ⟨rank_mono _ hle, rank_mono _ hre⟩

theorem subtracted_deletions : Subtracted bundles source dest b
    { b with hints := b.hints.map (movedHint b (newPosition bundles paths)) } where
  subtracts := subtractHints_fits hfits hc hb
  hints := movedHint_forall₂ b _ _
  fits := fits_deletions hfits hdel hc hdest hb
  applied := by
    have hfits' := fits_deletions hfits hdel hc hdest hb
    obtain ⟨final, report, happly, hfinal⟩ :=
      applyHints_edited (List.forall_mem_singleton.2 hfits')
    have hall : ∀ b' ∈ bundles ++ [b], b'.Fits source := by
      intro b' hb'
      rcases List.mem_append.1 hb' with hb' | hb'
      · exact hfits b' hb'
      · exact (List.mem_singleton.1 hb') ▸ hb
    obtain ⟨final', report', happly', hfinal'⟩ := applyHints_edited hall
    have hcomp : Edited (bundles ++ [b]) source final := by
      apply hdest.comp hfinal
      intro path data hfile
      have hwithin : ∀ h ∈ b.hints, ∀ p ∈ h.patches, ∃ n, p.Within b n := by
        intro h hh p hp
        obtain ⟨_, data, _, _, hw⟩ := hb h hh p hp
        exact ⟨data.length, hw⟩
      have hmap : (b.editsAt path).map (Edit.moved (newPosition bundles paths path)) =
          (b.editsAt path).map (Edit.moved (rank (stays (bundles.flatMap (·.editsAt path))))) := by
        apply List.map_congr_left
        intro e he
        obtain ⟨hle, hre⟩ := editsAt_within hb hfile e he
        rw [Edit.moved, Edit.moved, newPosition_deletions hfits hc hdel hfile hre,
          newPosition_deletions hfits hc hdel hfile (hle.trans hre)]
      rw [editsAt_moved _ hwithin, hmap, editedFile_moved (flatMap_editsAt_text hdel path)
        (editsAt_text hbdel path), List.flatMap_append, List.flatMap_singleton]
    cases hcomp.unique hfinal'
    exact ⟨final, report, report', happly, happly'⟩

end deletions

/-- Subtracting commutes with applying, for deletions: of the whole bundle and of all its
slices. -/
theorem subtractHints_deletions (source : TestCase) (bundles : List HintBundle) (b : HintBundle)
    (hfits : ∀ c ∈ b :: bundles, c.Fits source) (hdel : ∀ c ∈ b :: bundles, c.Deletes) :
    ∃ dest report b', applyHints bundles source = .ok (some (some dest, report)) ∧
      Subtracted bundles source dest b b' ∧ b'.Deletes ∧
      ∀ i j, Subtracted bundles source dest (b.slice i j) (b'.slice i j) := by
  obtain ⟨hb, hfits⟩ := List.forall_mem_cons.1 hfits
  obtain ⟨hbdel, hdel⟩ := List.forall_mem_cons.1 hdel
  obtain ⟨paths, hc⟩ := fits_collect hfits
  obtain ⟨dest, report, happly, hdest⟩ := applyHints_edited hfits
  refine ⟨dest, report, _, happly, subtracted_deletions hfits hdel hc hdest hb hbdel, ?_, ?_⟩
  · intro h' hh' p' hp'
    obtain ⟨h, hh, rfl⟩ := List.mem_map.1 hh'
    obtain ⟨p, hp, rfl⟩ := List.mem_map.1 (List.mem_filter.1 hp').1
    exact hbdel h hh p hp
  · intro i j
    have hslice := subtracted_deletions hfits hdel hc hdest (b := b.slice i j)
      (hb.slice i j) (fun h hh => hbdel h (b.slice_subset i j hh))
    have heq : { b.slice i j with
        hints := (b.slice i j).hints.map (movedHint (b.slice i j) (newPosition bundles paths)) } =
          HintBundle.slice
            { b with hints := b.hints.map (movedHint b (newPosition bundles paths)) } i j := by
      simp only [HintBundle.slice, List.map_take, List.map_drop]
      rfl
    rw [← heq]
    exact hslice

def fooBar : Bytes := [0x66, 0x6f, 0x6f, 0x20, 0x62, 0x61, 0x72, 0x20, 0x78, 0x20, 0x79, 0x7a]

def wordHints : HintBundle where
  hints := [{ patches := [{ left := some 0, right := some 3 }] },
    { patches := [{ left := some 4, right := some 7 }] },
    { patches := [{ left := some 8, right := some 9 }] },
    { patches := [{ left := some 10, right := some 12 }] }]

def appliedHints : HintBundle where
  hints := [{ patches := [{ left := some 2, right := some 3 }] },
    { patches := [{ left := some 1, right := some 3 }] },
    { patches := [{ left := some 8, right := some 9 }] },
    { patches := [{ left := some 10, right := some 11 }] }]

theorem subtractHints_deletions_words : ∃ dest report b',
    applyHints [appliedHints] (.file fooBar) = .ok (some (some dest, report)) ∧
      Subtracted [appliedHints] (.file fooBar) dest wordHints b' ∧ b'.Deletes ∧
      ∀ i j, Subtracted [appliedHints] (.file fooBar) dest (wordHints.slice i j) (b'.slice i j) := by
  have hwords : wordHints.Fits (.file fooBar) := fits_file (by decide)
  have happlied : appliedHints.Fits (.file fooBar) := fits_file (by decide)
  apply subtractHints_deletions (.file fooBar) [appliedHints] wordHints
  · exact List.forall_mem_cons.2 ⟨hwords, List.forall_mem_singleton.2 happlied⟩
  · unfold HintBundle.Deletes
    decide

end Cvise
