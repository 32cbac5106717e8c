import Cvise.EditedFiles
import Cvise.SubtractHints

namespace Cvise
set_option autoImplicit true

variable {bundles : List HintBundle} {b b' : HintBundle} {paths : PathToPatches}
  {source dest final : TestCase}

def Edit.moved (g : Nat → Nat) (e : Edit) : Edit := { e with left := g e.left, right := g e.right }

theorem covered_sortedSpans (edits : List Edit) (i : Nat) :
    Covered (sortedSpans edits) i ↔ ∃ e ∈ edits, e.left ≤ i ∧ i < e.right := by
  simp only [Covered, sortedSpans, List.mem_map, List.mem_insertionSort]
  constructor
  · rintro ⟨_, ⟨e, he, rfl⟩, hcov⟩
    exact ⟨e, he, hcov⟩
  · rintro ⟨e, he, hcov⟩
    exact ⟨_, ⟨e, he, rfl⟩, hcov⟩

theorem patches_moved (g : RelPath → Nat → Nat) (b : HintBundle) :
    ((b.hints.map (movedHint b g)).flatMap Hint.patches) =
      ((b.hints.flatMap Hint.patches).map fun p => p.moved (g (b.pathAt p))).filter
        Patch.isKept := by
  induction b.hints with
  | nil => rfl
  | cons h hs ih =>
    rw [List.map_cons, List.flatMap_cons, ih, List.flatMap_cons, List.map_append,
      List.filter_append]
    rfl

theorem isKept_moved {p : Patch} (hp : p.Within b n) (g : Nat → Nat) :
    (p.moved g).isKept = decide (((b.editOf p).moved g).left < ((b.editOf p).moved g).right) := by
  obtain ⟨left, hl⟩ := Option.isSome_iff_exists.1 hp.left_some
  obtain ⟨right, hr⟩ := Option.isSome_iff_exists.1 hp.right_some
  simp [Patch.moved, Patch.isKept, hl, hr, hp.operation, Edit.moved, HintBundle.editOf]

theorem editOf_moved {p : Patch} (hp : p.Within b n) (g : Nat → Nat) :
    b.editOf (p.moved g) = (b.editOf p).moved g := by
  obtain ⟨left, hl⟩ := Option.isSome_iff_exists.1 hp.left_some
  obtain ⟨right, hr⟩ := Option.isSome_iff_exists.1 hp.right_some
  simp [Patch.moved, hl, hr, Edit.moved, HintBundle.editOf]

theorem editsAt_moved (g : RelPath → Nat → Nat)
    (hb : ∀ h ∈ b.hints, ∀ p ∈ h.patches, ∃ n, p.Within b n) (path : RelPath) :
    HintBundle.editsAt { b with hints := b.hints.map (movedHint b g) } path =
      ((b.editsAt path).map (Edit.moved (g path))).filter fun e => e.left < e.right := by
  have hps : ∀ p ∈ b.hints.flatMap Hint.patches, ∃ n, p.Within b n := by
    intro p hp
    obtain ⟨h, hh, hp⟩ := List.mem_flatMap.1 hp
    exact hb h hh p hp
  rw [HintBundle.editsAt, HintBundle.editsAt, patches_moved]
  generalize b.hints.flatMap Hint.patches = ps at hps
  change (((ps.map fun p => p.moved (g (b.pathAt p))).filter Patch.isKept).filter
    fun p => b.pathOf p = .ok path).map b.editOf = _
  induction ps with
  | nil => rfl
  | cons p ps ih =>
    obtain ⟨⟨n, hp⟩, hps⟩ := List.forall_mem_cons.1 hps
    have hrest := ih hps
    have hsame : b.pathOf (p.moved (g (b.pathAt p))) = b.pathOf p := rfl
    by_cases hpath : b.pathOf p = .ok path
    · have hat : b.pathAt p = path := by
        rw [HintBundle.pathAt, hpath]
        rfl
      rw [List.filter_cons_of_pos (by simpa using hpath), List.map_cons, List.map_cons,
        List.map_cons, List.filter_cons, List.filter_cons, isKept_moved hp, hat]
      split
      · rw [List.filter_cons_of_pos (by simpa [hat] using hsame.trans hpath), List.map_cons, hrest,
          editOf_moved hp]
      · exact hrest
    · rw [List.filter_cons_of_neg (by simpa using hpath), ← hrest, List.map_cons, List.filter_cons]
      split
      · rw [List.filter_cons_of_neg (by simpa [hsame] using hpath)]
      · rfl

theorem insertedText_plain {r : PatchRef} (h : r.patch.operation = none) :
    insertedText bundles source r = insertedBytes bundles r := by
  have hop : r.op bundles ≠ some pasteOp := by simp [PatchRef.op, h]
  rw [insertedText, insertedBytes]
  cases r.patch.value with
  | none => rfl
  | some v => simp only [if_neg hop]

section fits

variable (hfits : ∀ b ∈ bundles, b.Fits source) (hc : collectPatches bundles = .ok paths)
include hfits hc

/-- Where a position goes: behind what the earlier positions become. -/
theorem newPosition_cells (hf : source.HasFile path data) (hq : q ≤ data.length)
    (hin : Covered (sortedSpans (bundles.flatMap (·.editsAt path))) q →
      ∀ e ∈ bundles.flatMap (·.editsAt path), e.text = []) :
    newPosition bundles paths path q =
      ((List.range q).flatMap
        (cell id data (sortedSpans (bundles.flatMap (·.editsAt path))))).length +
      (if Covered (sortedSpans (bundles.flatMap (·.editsAt path))) q then []
        else groupText id (sortedSpans (bundles.flatMap (·.editsAt path))) q).length := by
  have hpos := fits_positioned hfits hc hf
  have hr : ∀ r ∈ paths.at path, r.Ranged := fun r hr => (hpos r hr).toRanged
  have hedits : (paths.at path).map (resolve bundles source) = bundles.flatMap (·.editsAt path) :=
    resolve_at hc (fits_operation hfits) path
  have hspans : sortedSpans ((paths.at path).map (resolve bundles source)) = _ :=
    sortedSpans_resolve hr
  have htext : (spansOf (sortedRefs (paths.at path))).map (Span.map (insertedText bundles source)) =
      (spansOf (sortedRefs (paths.at path))).map (Span.map (insertedBytes bundles)) := by
    apply List.map_congr_left
    intro x hx
    obtain ⟨r, hmem, rfl⟩ := List.mem_map.1 hx
    have hop : r.stamp.patch.operation = none := (hpos r (mem_sortedRefs.1 hmem)).operation
    rw [Span.map, Span.map]
    exact congrArg _ (insertedText_plain hop)
  rw [← hedits] at hin ⊢
  rw [hspans, htext, covered_map] at hin
  have hcells : cell id data ((spansOf (sortedRefs (paths.at path))).map
      (Span.map (insertedBytes bundles))) =
        cell (insertedBytes bundles) data (spansOf (sortedRefs (paths.at path))) := by
    funext i
    exact cell_map id (insertedBytes bundles) data _ i
  have hempty : Covered (spansOf (sortedRefs (paths.at path))) q →
      ∀ x ∈ spansOf (sortedRefs (paths.at path)), insertedBytes bundles x.val = [] := by
    intro hcov x hx
    obtain ⟨r, hmem, rfl⟩ := List.mem_map.1 hx
    have hop : r.patch.operation = none := (hpos r (mem_sortedRefs.1 hmem)).operation
    have he := hin hcov _ (List.mem_map_of_mem (mem_sortedRefs.1 hmem))
    have hplain : insertedText bundles source _ = insertedBytes bundles _ := insertedText_plain hop
    exact hplain.symm.trans he
  rw [hspans, htext, hcells, newPosition, (mergeOverlappingPatches_span hr).1,
    shifted_sweep (spansOf_proper hr) (sortedRefs_before hr) hq hempty]
  simp only [covered_map, groupText_map, Function.id_comp]
  omega

theorem fits_sized (path : RelPath) :
    ∀ m ∈ mergeOverlappingPatches (paths.at path), Sized bundles m := by
  have hmem : ∀ r ∈ paths.at path, r ∈ allRefs bundles := fun r hr => ((mem_at hc path).1 hr).1
  have hr : ∀ r ∈ paths.at path, r.Ranged := by
    intro r hr
    obtain ⟨_, _, _, _, hwithin⟩ := fits_ref hfits (hmem r hr)
    exact hwithin.positioned.toRanged
  intro m hm
  obtain ⟨r, hlead, _⟩ := (mem_mergeOverlappingPatches hr m.stamp).1 ⟨m, hm, rfl⟩
  obtain ⟨hall, hpath⟩ := (mem_at hc path).1 hlead.mem
  obtain ⟨path', data, hpath', hfile, _⟩ := fits_ref hfits hall
  cases hpath.symm.trans hpath'
  have hpos := mergeOverlappingPatches_positioned (fits_positioned hfits hc hfile) m hm
  exact { hpos.toRanged with value := hpos.value }

theorem subtractHints_fits (hb : b.Fits source) : subtractHints b bundles =
    .ok { b with hints := b.hints.map (movedHint b (newPosition bundles paths)) } := by
  apply subtractHints_eq _ hc (fits_sized hfits hc)
  intro h hh p hp
  obtain ⟨path, _, hpath, _⟩ := hb h hh p hp
  exact ⟨path, hpath⟩

end fits

theorem editsAt_within (hb : b.Fits source) (hf : source.HasFile path data) :
    ∀ e ∈ b.editsAt path, e.left ≤ e.right ∧ e.right ≤ data.length := by
  intro e he
  obtain ⟨p, hp, rfl⟩ := List.mem_map.1 he
  obtain ⟨hp, hpath⟩ := List.mem_filter.1 hp
  obtain ⟨h, hh, hp⟩ := List.mem_flatMap.1 hp
  obtain ⟨path', data', hpath', hfile, hwithin⟩ := hb h hh p hp
  cases (of_decide_eq_true hpath).symm.trans hpath'
  cases hasFile_unique hf hfile
  exact ⟨hwithin.left_le, hwithin.right_le⟩

theorem flatMap_editsAt_within (hfits : ∀ c ∈ bundles, c.Fits source)
    (hf : source.HasFile path data) :
    ∀ e ∈ bundles.flatMap (·.editsAt path), e.left ≤ e.right ∧ e.right ≤ data.length := by
  intro e he
  obtain ⟨c, hc, he⟩ := List.mem_flatMap.1 he
  exact editsAt_within (hfits c hc) hf e he

/-- Edits in two steps are edits in one when this holds of the single files. -/
theorem Edited.comp (h₁ : Edited bundles source dest) (h₂ : Edited [b'] dest final)
    (hfile : ∀ path data, source.HasFile path data →
      editedFile (editedFile data (bundles.flatMap (·.editsAt path))) (b'.editsAt path) =
        editedFile data ((bundles ++ [b]).flatMap (·.editsAt path))) :
    Edited (bundles ++ [b]) source final := by
  cases source with
  | file data =>
    cases h₁
    cases h₂
    have heq := hfile [] data ⟨rfl, rfl⟩
    rw [Edited, ← heq, List.flatMap_singleton]
  | dir t =>
    obtain ⟨t₁, rfl, hentries⟩ := h₁
    obtain ⟨t₂, rfl, hentries'⟩ := h₂
    refine ⟨t₂, rfl, ?_⟩
    rw [hentries', hentries, List.filterMap_filterMap]
    apply List.filterMap_congr
    rintro ⟨path, entry⟩ he
    cases entry with
    | file data =>
      have heq := hfile path data he
      simp only [editedEntry, Option.bind_some, List.flatMap_singleton, heq]
    | dir => rfl
    | symlink text dest => rfl

theorem fits_moved (hdest : Edited bundles source dest) (hb : b.Fits source)
    (g : RelPath → Nat → Nat) (hg : ∀ path data, source.HasFile path data →
      ∀ e ∈ b.editsAt path, g path e.left ≤ g path e.right ∧
        g path e.right ≤ (editedFile data (bundles.flatMap (·.editsAt path))).length) :
    HintBundle.Fits { b with hints := b.hints.map (movedHint b g) } dest := by
  intro h' hh' p' hp'
  obtain ⟨h, hh, rfl⟩ := List.mem_map.1 hh'
  obtain ⟨p, hp, rfl⟩ := List.mem_map.1 (List.mem_filter.1 hp').1
  obtain ⟨path, data, hpath, hfile, hwithin⟩ := hb h hh p hp
  have hat : b.pathAt p = path := by
    rw [HintBundle.pathAt, hpath]
    rfl
  have hedit : b.editOf p ∈ b.editsAt path :=
    List.mem_map_of_mem (List.mem_filter.2 ⟨List.mem_flatMap.2 ⟨h, hh, hp⟩, by simpa using hpath⟩)
  obtain ⟨hle, hre⟩ := hg path data hfile _ hedit
  obtain ⟨left, hl⟩ := Option.isSome_iff_exists.1 hwithin.left_some
  obtain ⟨right, hr⟩ := Option.isSome_iff_exists.1 hwithin.right_some
  simp only [HintBundle.editOf, hl, hr, Option.getD_some] at hle hre
  refine ⟨path, _, hpath, hdest.hasFile.2 ⟨data, hfile, rfl⟩, ?_⟩
  rw [hat]
  exact
    { left_some := by simp [Patch.moved, hl]
      right_some := by simp [Patch.moved, hr]
      left_le := by simpa [Patch.moved, hl, hr] using hle
      right_le := by simpa [Patch.moved, hr] using hre
      operation := hwithin.operation
      value := hwithin.value }

/-- The bundle `b'` makes of the destination what `b` makes of the source with the others. -/
structure Subtracted (bundles : List HintBundle) (source dest : TestCase) (b b' : HintBundle) :
    Prop where
  subtracts : subtractHints b bundles = .ok b'
  hints : List.Forall₂ (fun h h' => h'.type = h.type ∧ h'.extra = h.extra) b.hints b'.hints
  fits : b'.Fits dest
  applied : ∃ final report report', applyHints [b'] dest = .ok (some (some final, report)) ∧
    applyHints (bundles ++ [b]) source = .ok (some (some final, report'))

theorem movedHint_forall₂ (b : HintBundle) (g : RelPath → Nat → Nat) (hints : List Hint) :
    List.Forall₂ (fun h h' => h'.type = h.type ∧ h'.extra = h.extra) hints
      (hints.map (movedHint b g)) := by
  induction hints with
  | nil => exact .nil
  | cons h hs ih => exact .cons ⟨rfl, rfl⟩ ih

theorem fits_file (h : ∀ h ∈ b.hints, ∀ p ∈ h.patches, p.path = none ∧ p.Within b data.length) :
    b.Fits (.file data) := by
  intro g hg p hp
  obtain ⟨hpath, hwithin⟩ := h g hg p hp
  exact ⟨[], data, by rw [HintBundle.pathOf, hpath], ⟨rfl, rfl⟩, hwithin⟩

end Cvise
