import Cvise.ApplyHintsReference
import Cvise.ApplyFrame

namespace Cvise
set_option autoImplicit true

variable {bundles : List HintBundle} {b : HintBundle} {r : PatchRef} {paths : PathToPatches}
  {source dest : TestCase}

/-- The patch has a range within `n` bytes, no operation, and a word for its value. -/
structure Patch.Within (b : HintBundle) (n : Nat) (p : Patch) : Prop where
  left_some : p.left.isSome
  right_some : p.right.isSome
  left_le : p.left.getD 0 ≤ p.right.getD 0
  right_le : p.right.getD 0 ≤ n
  operation : p.operation = none
  value : ∀ v ∈ p.value, v < b.vocabulary.length

instance (b : HintBundle) (n : Nat) (p : Patch) : Decidable (p.Within b n) :=
  decidable_of_iff (p.left.isSome ∧ p.right.isSome ∧ p.left.getD 0 ≤ p.right.getD 0 ∧
      p.right.getD 0 ≤ n ∧ p.operation = none ∧ ∀ v ∈ p.value, v < b.vocabulary.length)
    ⟨fun ⟨h₁, h₂, h₃, h₄, h₅, h₆⟩ => ⟨h₁, h₂, h₃, h₄, h₅, h₆⟩,
      fun ⟨h₁, h₂, h₃, h₄, h₅, h₆⟩ => ⟨h₁, h₂, h₃, h₄, h₅, h₆⟩⟩

/-- Every patch lies within a file of the test case. -/
def HintBundle.Fits (b : HintBundle) (source : TestCase) : Prop :=
  ∀ h ∈ b.hints, ∀ p ∈ h.patches, ∃ file data, b.pathOf p = .ok file ∧ source.HasFile file data ∧
    p.Within b data.length

namespace HintBundle

/-- The edit that a patch without operation asks for. -/
def editOf (b : HintBundle) (p : Patch) : Edit where
  left := p.left.getD 0
  right := p.right.getD 0
  isReplacement := p.value.isSome
  text := (p.value.map fun v => b.vocabulary.getD v []).getD []

def editsAt (b : HintBundle) (path : RelPath) : List Edit :=
  ((b.hints.flatMap Hint.patches).filter fun p => b.pathOf p = .ok path).map b.editOf

end HintBundle

theorem hasFile_unique (h : source.HasFile file data) (h' : source.HasFile file data') :
    data = data' := by
  cases source with
  | file d => exact h.2.symm.trans h'.2
  | dir t =>
    cases DirTree.entry_unique h h'
    rfl

theorem Patch.Within.positioned (h : r.patch.Within (bundleAt bundles r) n) :
    Positioned bundles n r where
  left_some := h.left_some
  right_some := h.right_some
  left_le := h.left_le
  right_le := h.right_le
  operation := h.operation
  value := h.value

theorem resolve_plain (h : r.patch.operation = none) :
    resolve bundles source r = (bundleAt bundles r).editOf r.patch := by
  have hop : r.op bundles ≠ some pasteOp := by simp [PatchRef.op, h]
  have htext : insertedText bundles source r = ((bundleAt bundles r).editOf r.patch).text := by
    rw [insertedText, HintBundle.editOf]
    cases r.patch.value with
    | none => rfl
    | some v => simp only [if_neg hop, Option.map_some, Option.getD_some]
  rw [resolve, htext]
  rfl

theorem collectPatches_at (h : collectPatches bundles = .ok paths) (path : RelPath) :
    paths.at path =
      (allRefs bundles).filter fun r => (bundleAt bundles r).pathOf r.patch = .ok path := by
  rw [collectPatches] at h
  generalize allRefs bundles = refs at h ⊢
  induction refs generalizing paths with
  | nil =>
    cases h
    rfl
  | cons r rs ih =>
    simp only [List.mapM_cons, except_bind_ok] at h
    obtain ⟨x, hx, rest, hrest, h⟩ := h
    cases h
    obtain ⟨p, hp, hx⟩ := hx
    cases hx
    have hcons := ih hrest
    simp only [PathToPatches.at, List.filter_cons, hp, Except.ok.injEq] at hcons ⊢
    split
    · rw [List.map_cons, hcons]
    · exact hcons

theorem allRefs_flatMap (bundles : List HintBundle) (f : HintBundle → Patch → List β) :
    ((allRefs bundles).flatMap fun r => f (bundleAt bundles r) r.patch) =
      bundles.flatMap fun b => (b.hints.flatMap Hint.patches).flatMap (f b) := by
  have hbundle : ∀ x ∈ bundles.zipIdx, ((x.1.hints.zipIdx.flatMap (hintRefs x.2)).flatMap
      fun r => f (bundleAt bundles r) r.patch) =
        (x.1.hints.flatMap Hint.patches).flatMap (f x.1) := by
    intro ⟨b, i⟩ hx
    have hat : ∀ (p : Patch) (j : Nat), bundleAt bundles ⟨p, i, j⟩ = b := by
      intro p j
      rw [bundleAt, List.getD_eq_getElem?_getD, List.mem_zipIdx_iff_getElem?.1 hx, Option.getD_some]
    have hhint : ∀ h : Hint × Nat, ((hintRefs i h).flatMap
        fun r => f (bundleAt bundles r) r.patch) = h.1.patches.flatMap (f b) := by
      intro h
      simp only [hintRefs, List.flatMap_map, hat]
    have hzip : b.hints.zipIdx.flatMap (fun h => h.1.patches.flatMap (f b)) =
        b.hints.flatMap fun h => h.patches.flatMap (f b) := by
      rw [← List.flatMap_map Prod.fst (fun h : Hint => h.patches.flatMap (f b)), List.zipIdx_map_fst]
    rw [List.flatMap_assoc, List.flatMap_assoc]
    exact (List.flatMap_congr fun h _ => hhint h).trans hzip
  have hzip : bundles.zipIdx.flatMap (fun x => (x.1.hints.flatMap Hint.patches).flatMap (f x.1)) =
      bundles.flatMap fun b => (b.hints.flatMap Hint.patches).flatMap (f b) := by
    rw [← List.flatMap_map Prod.fst (fun b : HintBundle =>
      (b.hints.flatMap Hint.patches).flatMap (f b)), List.zipIdx_map_fst]
  rw [allRefs, List.flatMap_assoc]
  exact (List.flatMap_congr hbundle).trans hzip

/-- The patches of a file ask for the edits that the bundles list for it. -/
theorem resolve_at (h : collectPatches bundles = .ok paths)
    (hop : ∀ r ∈ allRefs bundles, r.patch.operation = none) (path : RelPath) :
    (paths.at path).map (resolve bundles source) = bundles.flatMap (·.editsAt path) := by
  have hfilter : ∀ (b : HintBundle) (ps : List Patch),
      (ps.filter fun p => b.pathOf p = .ok path).map b.editOf =
        ps.flatMap fun p => if b.pathOf p = .ok path then [b.editOf p] else [] := by
    intro b ps
    induction ps with
    | nil => rfl
    | cons p ps ih =>
      rw [List.filter_cons, List.flatMap_cons, ← ih]
      by_cases hp : b.pathOf p = .ok path <;> simp [hp]
  have hrefs : (paths.at path).map (resolve bundles source) =
      (allRefs bundles).flatMap fun r =>
        if (bundleAt bundles r).pathOf r.patch = .ok path then
          [(bundleAt bundles r).editOf r.patch] else [] := by
    rw [collectPatches_at h]
    clear h
    generalize allRefs bundles = refs at hop ⊢
    induction refs with
    | nil => rfl
    | cons r rs ih =>
      obtain ⟨hr, hrs⟩ := List.forall_mem_cons.1 hop
      rw [List.filter_cons, List.flatMap_cons, ← ih hrs]
      by_cases hp : (bundleAt bundles r).pathOf r.patch = .ok path <;> simp [hp, resolve_plain hr]
  rw [hrefs, allRefs_flatMap bundles fun b p => if b.pathOf p = .ok path then [b.editOf p] else []]
  exact List.flatMap_congr fun b _ => (hfilter b _).symm

/-- What becomes of an entry under patches without operation. -/
def editedEntry (bundles : List HintBundle) (e : RelPath × Entry) : Option (RelPath × Entry) :=
  match e.2 with
  | .file data => some (e.1, .file (editedFile data (bundles.flatMap (·.editsAt e.1))))
  | .dir => some (e.1, .dir)
  | .symlink _ _ => none

/-- The destination is the source with the edits of all bundles. -/
def Edited (bundles : List HintBundle) : TestCase → TestCase → Prop
  | .file data, dest => dest = .file (editedFile data (bundles.flatMap (·.editsAt [])))
  | .dir t, dest => ∃ t', dest = .dir t' ∧ t'.entries = t.entries.filterMap (editedEntry bundles)

theorem Edited.unique {dest' : TestCase} (h : Edited bundles source dest)
    (h' : Edited bundles source dest') : dest = dest' := by
  cases source with
  | file data => exact h.trans h'.symm
  | dir t =>
    obtain ⟨t₁, rfl, h₁⟩ := h
    obtain ⟨t₂, rfl, h₂⟩ := h'
    cases t₁
    cases t₂
    cases h₁
    cases h₂
    rfl

theorem Edited.hasFile (h : Edited bundles source dest) : dest.HasFile path out ↔
    ∃ data, source.HasFile path data ∧
      out = editedFile data (bundles.flatMap (·.editsAt path)) := by
  cases source with
  | file data =>
    cases h
    constructor
    · rintro ⟨rfl, rfl⟩
      exact ⟨data, ⟨rfl, rfl⟩, rfl⟩
    · rintro ⟨_, ⟨rfl, rfl⟩, rfl⟩
      exact ⟨rfl, rfl⟩
  | dir t =>
    obtain ⟨t', rfl, hentries⟩ := h
    simp only [TestCase.HasFile, hentries, List.mem_filterMap]
    constructor
    · rintro ⟨⟨q, entry⟩, he, hout⟩
      cases entry with
      | file data =>
        cases hout
        exact ⟨data, he, rfl⟩
      | dir => cases hout
      | symlink text dest => cases hout
    · rintro ⟨data, he, rfl⟩
      exact ⟨_, he, rfl⟩

section fits

variable (hfits : ∀ b ∈ bundles, b.Fits source)
include hfits

theorem fits_ref (hr : r ∈ allRefs bundles) : ∃ path data,
    (bundleAt bundles r).pathOf r.patch = .ok path ∧ source.HasFile path data ∧
      r.patch.Within (bundleAt bundles r) data.length := by
  obtain ⟨b, hb, h, hh, hp⟩ := mem_allRefs.1 hr
  have hat : bundleAt bundles r = b := by
    rw [bundleAt, List.getD_eq_getElem?_getD, hb, Option.getD_some]
  rw [hat]
  exact hfits b (List.mem_of_getElem? hb) h (List.mem_of_getElem? hh) r.patch hp

theorem fits_operation : ∀ r ∈ allRefs bundles, r.patch.operation = none := by
  intro r hr
  obtain ⟨_, _, _, _, hwithin⟩ := fits_ref hfits hr
  exact hwithin.operation

theorem fits_collect : ∃ paths, collectPatches bundles = .ok paths := by
  apply except_mapM_isOk.2
  intro r hr
  obtain ⟨path, _, hpath, _⟩ := fits_ref hfits hr
  exact ⟨(path, r), pathOf_bind_ok.2 ⟨rfl, hpath⟩⟩

theorem fits_positioned (hc : collectPatches bundles = .ok paths) (hf : source.HasFile path data) :
    ∀ r ∈ paths.at path, Positioned bundles data.length r := by
  intro r hr
  obtain ⟨hmem, hpath⟩ := (mem_at hc path).1 hr
  obtain ⟨path', data', hpath', hfile, hwithin⟩ := fits_ref hfits hmem
  cases hpath.symm.trans hpath'
  cases hasFile_unique hf hfile
  exact hwithin.positioned

theorem fits_not_removed (hc : collectPatches bundles = .ok paths) (path : RelPath) :
    ¬ Removed bundles (paths.at path) := by
  intro ⟨r, hr, hop⟩
  have hnone := fits_operation hfits r ((mem_at hc path).1 hr).1
  simp [PatchRef.op, hnone] at hop

theorem fits_wellFormed {t : DirTree} (hsource : source = .dir t)
    (hc : collectPatches bundles = .ok paths) : WellFormed bundles t paths where
  collect := hc
  valid := by
    intro r hr
    obtain ⟨_, _, _, _, hwithin⟩ := fits_ref hfits hr
    exact
      { operation := by simp [hwithin.operation]
        value := hwithin.value
        paste := by simp [PatchRef.op, hwithin.operation] }
  ranged := by
    rintro ⟨path, entry⟩ he _ data hdata r hr
    cases entry with
    | file d =>
      cases hdata
      have hfile : source.HasFile path data := by
        rw [hsource]
        exact he
      have hpos := fits_positioned hfits hc hfile r hr
      exact ⟨hpos.toRanged, hpos.right_le⟩
    | dir => cases hdata
    | symlink text dest => cases hdata
  removed := by
    intro e _ _ hremoved
    exact absurd hremoved (fits_not_removed hfits hc _)

theorem fits_outcome (hc : collectPatches bundles = .ok paths) (e : RelPath × Entry) :
    entryOutcome bundles source paths e = editedEntry bundles e := by
  obtain ⟨path, entry⟩ := e
  rw [entryOutcome, if_neg (fits_not_removed hfits hc path)]
  cases entry with
  | file data => simp only [editedEntry, resolve_at hc (fits_operation hfits)]
  | dir => rfl
  | symlink text dest => rfl

theorem applyHints_edited :
    ∃ dest report, applyHints bundles source = .ok (some (some dest, report)) ∧
      Edited bundles source dest := by
  obtain ⟨paths, hc⟩ := fits_collect hfits
  cases source with
  | file data =>
    have hfile : (TestCase.file data).HasFile [] data := ⟨rfl, rfl⟩
    have hpos := fits_positioned hfits hc hfile
    obtain ⟨stats, happ⟩ := applyHintPatchesToFile_rewrite (.file data) paths [] [] hpos
    obtain ⟨hrefs, _, hout⟩ := applyHintPatchesToFile_contents happ
    have hok := applyHints_single hc (takeRmPatch_none (.file data) [] hpos) happ
    refine ⟨_, _, hok, ?_⟩
    rw [Edited, hout, ← editedFile_resolve fun r hr => (hrefs r hr).1,
      resolve_at hc (fits_operation hfits)]
  | dir t =>
    have hwf := fits_wellFormed hfits rfl hc
    obtain ⟨res, hres⟩ := hwf.applyHints_total
    cases res with
    | none =>
      obtain ⟨_, _, _, _, r, hr, _, file, htarget, _⟩ := hwf.keptConflict_of_none hres
      have hnone := fits_operation hfits r ((mem_at hc _).1 hr).1
      simp [PatchRef.pasteTarget, PatchRef.op, hnone] at htarget
    | some result =>
      obtain ⟨paths', tree, hc', hdest, hentries, _⟩ := applyHints_outcome hres
      cases hc.symm.trans hc'
      refine ⟨.dir tree, result.2, ?_, tree, rfl, ?_⟩
      · rw [hres, ← hdest]
      · rw [hentries]
        exact List.filterMap_congr fun e _ => fits_outcome hfits hc e

end fits

end Cvise
