import Cvise.MergePatches
import Cvise.Outcome

namespace Cvise
set_option autoImplicit true

variable {bundles bundles' : List HintBundle} {refs refs' : List PatchRef} {r : PatchRef}

/-- The patch has a range within the `n` bytes of a file and no operation, and refers to a word of
its vocabulary if it inserts something. -/
structure Positioned (bundles : List HintBundle) (n : Nat) (r : PatchRef) : Prop extends
    r.Ranged where
  right_le : r.span.right ≤ n
  operation : r.patch.operation = none
  value : ∀ v ∈ r.patch.value, v < (bundleAt bundles r).vocabulary.length

instance (bundles : List HintBundle) (n : Nat) (r : PatchRef) :
    Decidable (Positioned bundles n r) :=
  decidable_of_iff (r.Ranged ∧ r.span.right ≤ n ∧ r.patch.operation = none ∧
      ∀ v ∈ r.patch.value, v < (bundleAt bundles r).vocabulary.length)
    ⟨fun ⟨a, b, c, d⟩ => ⟨a, b, c, d⟩, fun ⟨a, b, c, d⟩ => ⟨a, b, c, d⟩⟩

/-- The bytes that a patch without operation inserts. -/
def insertedBytes (bundles : List HintBundle) (r : PatchRef) : Bytes :=
  match r.patch.value with
  | none => []
  | some v => (bundleAt bundles r).vocabulary.getD v []

theorem bundleAt_stamp (bundles : List HintBundle) (r : PatchRef) :
    bundleAt bundles r.stamp = bundleAt bundles r := rfl

theorem Positioned.insertion (h : Positioned bundles n r) (testCase : TestCase)
    (paths : PathToPatches) :
    insertion bundles testCase paths r = .ok (some (insertedBytes bundles r)) := by
  rw [Cvise.insertion, insertedBytes]
  cases hv : r.patch.value with
  | none => rfl
  | some v =>
    have hlt := h.value v hv
    have hw : (bundleAt bundles r).word v = .ok ((bundleAt bundles r).vocabulary.getD v []) := by
      simp [HintBundle.word, List.getElem?_eq_getElem hlt]
    simp only [h.operation, hw]
    rfl

/-- A patch that starts where the previous one stopped, or later, trips no assertion. -/
theorem Positioned.applyPatch (h : Positioned bundles origData.length r) (testCase : TestCase)
    (paths : PathToPatches) (st : FileEdit) (hst : st.startPos ≤ r.span.left) :
    ∃ stats, applyPatch bundles testCase paths origData st r = .ok (some
      ⟨st.newData ++ (origData.take r.span.left).drop st.startPos ++ insertedBytes bundles r,
        r.span.right, stats⟩) := by
  obtain ⟨l, hl⟩ := Option.isSome_iff_exists.1 h.left_some
  obtain ⟨rt, hrt⟩ := Option.isSome_iff_exists.1 h.right_some
  have hle := h.left_le
  have hre := h.right_le
  simp only [PatchRef.span, hl, hrt, Option.getD_some] at hst hle hre ⊢
  have hc : st.startPos ≤ l ∧ l ≤ origData.length ∧ l ≤ rt ∧ rt ≤ origData.length := by omega
  simp only [Cvise.applyPatch, hl, hrt, if_pos hc, h.insertion]
  exact ⟨_, rfl⟩

theorem applyMerged_splice {ms : List PatchRef} (st : FileEdit) (testCase : TestCase)
    (paths : PathToPatches) (file : RelPath)
    (hm : ∀ m ∈ ms, Positioned bundles origData.length m) (hst : ∀ m ∈ ms, st.startPos ≤ m.span.left)
    (hs : (spansOf ms).Pairwise fun a b => a.right ≤ b.left) :
    ∃ stats, applyMerged bundles testCase paths file origData st ms = .ok (some
      (st.newData ++ splice (insertedBytes bundles) origData st.startPos (spansOf ms), stats)) := by
  induction ms generalizing st with
  | nil => exact ⟨st.stats, rfl⟩
  | cons r rs ih =>
    obtain ⟨hr, hrs⟩ := List.forall_mem_cons.1 hm
    obtain ⟨hb, hs⟩ := List.pairwise_cons.1 hs
    obtain ⟨stats, happ⟩ := hr.applyPatch testCase paths st (hst r List.mem_cons_self)
    obtain ⟨stats', hrest⟩ := ih
      ⟨st.newData ++ (origData.take r.span.left).drop st.startPos ++ insertedBytes bundles r,
        r.span.right, stats⟩ hrs (fun m hm => hb m.span (List.mem_map_of_mem hm)) hs
    apply Exists.intro stats'
    rw [applyMerged, happ]
    apply hrest.trans
    simp only [spansOf, List.map_cons, splice, List.append_assoc]
    rfl

theorem mergeOverlappingPatches_positioned (h : ∀ r ∈ refs, Positioned bundles n r) :
    ∀ m ∈ mergeOverlappingPatches refs, Positioned bundles n m := by
  have hr : ∀ r ∈ refs, r.Ranged := fun r hr => (h r hr).toRanged
  intro m hm
  obtain ⟨r, hlead, hs⟩ := (mem_mergeOverlappingPatches hr m.stamp).1 ⟨m, hm, rfl⟩
  have hpos := h r hlead.mem
  exact
    { (mergeOverlappingPatches_span hr).2 m hm with
      right_le := right_mergeOverlappingPatches hr (fun r hr => (h r hr).right_le) m hm
      operation := (congrArg (·.patch.operation) hs).symm.trans hpos.operation
      value := by
        have hv := hpos.value
        rwa [show r.patch.value = m.patch.value from congrArg (·.patch.value) hs,
          ← bundleAt_stamp, hs, bundleAt_stamp] at hv }

/-- The loop over the merged patches computes the reference semantics of the sorted ones. -/
theorem applyHintPatchesToFile_rewrite (testCase : TestCase) (paths : PathToPatches)
    (file : RelPath) (stats : Dict Str Int) (h : ∀ r ∈ refs, Positioned bundles origData.length r) :
    ∃ stats', applyHintPatchesToFile bundles testCase paths file origData stats refs = .ok (some
      (rewriteSpans (insertedBytes bundles) origData (spansOf (sortedRefs refs)), stats')) := by
  have hr : ∀ r ∈ refs, r.Ranged := fun r hr => (h r hr).toRanged
  have hright : ∀ x ∈ spansOf (sortedRefs refs), x.right ≤ origData.length := by
    intro x hx
    obtain ⟨r, hr, rfl⟩ := List.mem_map.1 hx
    exact (h r (mem_sortedRefs.1 hr)).right_le
  obtain ⟨stats', happ⟩ := applyMerged_splice ⟨[], 0, stats⟩ testCase paths file
    (mergeOverlappingPatches_positioned h) (fun _ _ => Nat.zero_le _)
    ((mergeOverlappingPatches_separated hr).2.imp And.left)
  apply Exists.intro stats'
  rw [applyHintPatchesToFile, happ, (mergeOverlappingPatches_span hr).1,
    splice_sweep (spansOf_proper hr) (sortedRefs_before hr) hright]
  rfl

/-- What the patches on a file should make of it: at each position the text of the merged group
that starts there, and then the byte itself unless a range covers it. The text of a group is what
its least patch inserts. -/
structure FileReference (bundles : List HintBundle) (refs : List PatchRef) (data out : Bytes)
    (text : Nat → Bytes) : Prop where
  out_eq : out = (List.range (data.length + 1)).flatMap fun i =>
    text i ++ if Covered (spansOf refs) i then [] else data[i]?.toList
  group : ∀ i, LeftEnd (spansOf refs) i → ∃ p ∈ refs, p.span.left = i ∧
    (∀ q ∈ refs, i ≤ q.span.left → patchMergeSortingKey p ≤ patchMergeSortingKey q) ∧
    text i = insertedBytes bundles p
  outside : ∀ i, ¬ LeftEnd (spansOf refs) i → text i = []

theorem rewrite_reference (h : ∀ r ∈ refs, Positioned bundles data.length r) :
    FileReference bundles refs data
      (rewriteSpans (insertedBytes bundles) data (spansOf (sortedRefs refs)))
      (groupText (insertedBytes bundles) (spansOf (sortedRefs refs))) where
  out_eq := by
    apply List.flatMap_congr
    intro i _
    simp only [cell, (spansOf_sortedRefs refs).covered]
  group := by
    intro i hi
    rw [← (spansOf_sortedRefs refs).leftEnd] at hi
    obtain ⟨x, hx⟩ := firstAt_isSome hi.1
    rw [firstAt_spansOf, Option.map_eq_some_iff] at hx
    obtain ⟨p, hp, rfl⟩ := hx
    obtain ⟨hmem, hl, hle⟩ := find?_sortedRefs (fun r hr => (h r hr).toRanged) hp
    apply Exists.intro p
    apply And.intro hmem
    apply And.intro hl
    apply And.intro hle
    rw [groupText, if_pos hi, firstAt_spansOf, hp]
    rfl
  outside := by
    intro i hi
    rw [← (spansOf_sortedRefs refs).leftEnd] at hi
    rw [groupText, if_neg hi]

/-- The bytes that no range covers. -/
def cutOut (data : Bytes) (xs : List (Span PatchRef)) : Bytes :=
  (data.zipIdx.filter fun b => ¬ Covered xs b.2).map Prod.fst

theorem flatMap_uncovered (data : Bytes) (xs : List (Span PatchRef)) (k : Nat) :
    (List.range' k (data.length + 1)).flatMap
        (fun i => if Covered xs i then [] else data[i - k]?.toList) =
      ((data.zipIdx k).filter fun b => ¬ Covered xs b.2).map Prod.fst := by
  induction data generalizing k with
  | nil => simp
  | cons b data ih =>
    rw [List.length_cons, List.range'_succ, List.flatMap_cons, List.zipIdx_cons,
      List.filter_cons, Nat.sub_self]
    have hrest : (List.range' (k + 1) (data.length + 1)).flatMap
        (fun i => if Covered xs i then [] else (b :: data)[i - k]?.toList) =
        (List.range' (k + 1) (data.length + 1)).flatMap
          (fun i => if Covered xs i then [] else data[i - (k + 1)]?.toList) := by
      apply List.flatMap_congr
      intro i hi
      rw [List.mem_range'_1] at hi
      rw [show i - k = (i - (k + 1)) + 1 by omega, List.getElem?_cons_succ]
    rw [hrest, ih]
    by_cases hc : Covered xs k
    · simp [hc]
    · simp [hc]

theorem FileReference.deletion (h : FileReference bundles refs data out text)
    (hv : ∀ r ∈ refs, r.patch.value = none) : out = cutOut data (spansOf refs) := by
  have ht : ∀ i, text i = [] := by
    intro i
    by_cases hi : LeftEnd (spansOf refs) i
    · obtain ⟨p, hp, _, _, he⟩ := h.group i hi
      rw [he, insertedBytes, hv p hp]
    · exact h.outside i hi
  rw [h.out_eq, cutOut, List.range_eq_range', ← flatMap_uncovered]
  simp only [ht, List.nil_append, Nat.sub_zero]

/-- Some hint of some bundle has the patch, under this vocabulary. -/
def Occurs (bundles : List HintBundle) (vocabulary : List Bytes) (p : Patch) : Prop :=
  ∃ b ∈ bundles, b.vocabulary = vocabulary ∧ ∃ h ∈ b.hints, p ∈ h.patches

/-- The same patches, in whatever order of the bundles, the hints and the patches. -/
def SamePatches (bundles bundles' : List HintBundle) : Prop :=
  ∀ vocabulary p, Occurs bundles vocabulary p ↔ Occurs bundles' vocabulary p

theorem occurs_iff {vocabulary : List Bytes} {p : Patch} : Occurs bundles vocabulary p ↔
    ∃ r ∈ allRefs bundles, (bundleAt bundles r).vocabulary = vocabulary ∧ r.patch = p := by
  constructor
  · intro ⟨b, hb, hv, h, hh, hp⟩
    obtain ⟨i, hi⟩ := List.mem_iff_getElem?.1 hb
    obtain ⟨j, hj⟩ := List.mem_iff_getElem?.1 hh
    have hr : (⟨p, i, j⟩ : PatchRef) ∈ allRefs bundles := mem_allRefs.2 ⟨b, hi, h, hj, hp⟩
    have hat : bundleAt bundles ⟨p, i, j⟩ = b := by simp [bundleAt, hi]
    exact ⟨_, hr, by rw [hat, hv], rfl⟩
  · intro ⟨r, hr, hv, hp⟩
    obtain ⟨b, hb, h, hh, hrp⟩ := mem_allRefs.1 hr
    have hat : bundleAt bundles r = b := by simp [bundleAt, hb]
    rw [hat] at hv
    exact ⟨b, List.mem_of_getElem? hb, hv, h, List.mem_of_getElem? hh, hp ▸ hrp⟩

theorem SamePatches.counterpart (h : SamePatches bundles bundles') (hr : r ∈ allRefs bundles) :
    ∃ s ∈ allRefs bundles', s.patch = r.patch ∧
      (bundleAt bundles' s).vocabulary = (bundleAt bundles r).vocabulary := by
  obtain ⟨s, hs, hv, hp⟩ := occurs_iff.1 ((h _ _).1 (occurs_iff.2 ⟨r, hr, rfl, rfl⟩))
  exact ⟨s, hs, hp, hv⟩

theorem SamePatches.symm (h : SamePatches bundles bundles') : SamePatches bundles' bundles :=
  fun v p => (h v p).symm

section counterparts

variable {s : PatchRef} (hp : s.patch = r.patch)
  (hv : (bundleAt bundles' s).vocabulary = (bundleAt bundles r).vocabulary)
include hp hv

theorem pathOf_counterpart : (bundleAt bundles' s).pathOf s.patch =
    (bundleAt bundles r).pathOf r.patch := by
  simp only [HintBundle.pathOf, HintBundle.word, hp, hv]

theorem insertedBytes_counterpart : insertedBytes bundles' s = insertedBytes bundles r := by
  simp only [insertedBytes, hp, hv]

theorem Positioned.counterpart (h : Positioned bundles n r) : Positioned bundles' n s where
  left_some := hp ▸ h.left_some
  right_some := hp ▸ h.right_some
  left_le := hp ▸ h.left_le
  right_le := by
    rw [PatchRef.span, hp]
    exact h.right_le
  operation := hp ▸ h.operation
  value := by
    rw [hp, hv]
    exact h.value

end counterparts

theorem SamePatches.collectPatches (h : SamePatches bundles bundles')
    (hc : collectPatches bundles = .ok paths) : ∃ paths', collectPatches bundles' = .ok paths' := by
  apply except_mapM_isOk.2
  intro s hs
  obtain ⟨r, hr, hp, hv⟩ := h.symm.counterpart hs
  have hpath := pathOf_counterpart hp hv
  obtain ⟨x, hx⟩ := except_mapM_isOk.1 ⟨paths, hc⟩ r hr
  obtain ⟨_, hok⟩ := pathOf_bind_ok.1 hx
  exact ⟨(x.1, s), pathOf_bind_ok.2 ⟨rfl, hpath ▸ hok⟩⟩

/-- Patches with the same range that both delete or both replace insert the same bytes. -/
def SameKindSameBytes (bundles : List HintBundle) (refs : List PatchRef) : Prop :=
  ∀ p ∈ refs, ∀ q ∈ refs, patchMergeSortingKey p = patchMergeSortingKey q →
    insertedBytes bundles p = insertedBytes bundles q

/-- Each of the patches has a counterpart that inserts the same bytes. -/
def Matched (bundles bundles' : List HintBundle) (refs refs' : List PatchRef) : Prop :=
  ∀ r ∈ refs, ∃ s ∈ refs', s.patch = r.patch ∧ insertedBytes bundles' s = insertedBytes bundles r

theorem Matched.sameRanges (h : Matched bundles bundles' refs refs')
    (h' : Matched bundles' bundles refs' refs) : SameRanges (spansOf refs) (spansOf refs') := by
  have key : ∀ {bs bs' : List HintBundle} {rs rs' : List PatchRef}, Matched bs bs' rs rs' →
      ∀ l r, (∃ x ∈ spansOf rs, x.left = l ∧ x.right = r) →
        ∃ y ∈ spansOf rs', y.left = l ∧ y.right = r := by
    intro bs bs' rs rs' hm l r ⟨x, hx, hl, hr⟩
    obtain ⟨p, hp, rfl⟩ := List.mem_map.1 hx
    obtain ⟨q, hq, hqp, _⟩ := hm p hp
    exact ⟨q.span, List.mem_map_of_mem hq, by rw [← hl, PatchRef.span, hqp]; rfl,
      by rw [← hr, PatchRef.span, hqp]; rfl⟩
  intro l r
  exact ⟨key h l r, key h' l r⟩

theorem patchMergeSortingKey_patch {s : PatchRef} (h : s.patch = r.patch) :
    patchMergeSortingKey s = patchMergeSortingKey r := by
  simp only [patchMergeSortingKey, h]

theorem FileReference.text_eq (h : FileReference bundles refs data out text)
    (h' : FileReference bundles' refs' data out' text')
    (hm : Matched bundles bundles' refs refs') (hm' : Matched bundles' bundles refs' refs)
    (hsame : SameKindSameBytes bundles refs) (i : Nat) : text i = text' i := by
  have hle := (hm.sameRanges hm').leftEnd i
  by_cases hi : LeftEnd (spansOf refs) i
  · obtain ⟨p, hp, hpi, hpl, htext⟩ := h.group i hi
    obtain ⟨p', hp', hpi', hpl', htext'⟩ := h'.group i (hle.1 hi)
    obtain ⟨q, hq, hqp, hqb⟩ := hm' p' hp'
    obtain ⟨q', hq', hqp', _⟩ := hm p hp
    have hqi : q.span.left = i := by rw [← hpi', PatchRef.span, hqp]; rfl
    have hqi' : q'.span.left = i := by rw [← hpi, PatchRef.span, hqp']; rfl
    have h1 := hpl q hq hqi.ge
    have h2 := hpl' q' hq' hqi'.ge
    rw [patchMergeSortingKey_patch hqp] at h1
    rw [patchMergeSortingKey_patch hqp'] at h2
    have hkey : patchMergeSortingKey p = patchMergeSortingKey q :=
      (le_antisymm h1 h2).trans (patchMergeSortingKey_patch hqp).symm
    rw [htext, htext', hsame p hp q hq hkey, hqb]
  · rw [h.outside i hi, h'.outside i (hle.not.1 hi)]

/-- The order of the bundles, the hints and the patches does not matter. -/
theorem FileReference.unique (h : FileReference bundles refs data out text)
    (h' : FileReference bundles' refs' data out' text')
    (hm : Matched bundles bundles' refs refs') (hm' : Matched bundles' bundles refs' refs)
    (hsame : SameKindSameBytes bundles refs) : out = out' := by
  rw [h.out_eq, h'.out_eq]
  apply List.flatMap_congr
  intro i _
  simp only [h.text_eq h' hm hm' hsame i, (hm.sameRanges hm').covered]

theorem takeRmPatch_none (entry : Entry) (stats : Dict Str Int)
    (h : ∀ r ∈ refs, Positioned bundles n r) :
    takeRmPatch bundles entry stats refs = .ok none := by
  induction refs with
  | nil => rfl
  | cons r rs ih =>
    obtain ⟨hr, hrs⟩ := List.forall_mem_cons.1 h
    rw [takeRmPatch, hr.operation]
    exact ih hrs

/-- `out` is what `apply_hints` makes of the file at path `file` of the source. -/
structure FileOutcome (bundles : List HintBundle) (source : TestCase) (paths : PathToPatches)
    (file : RelPath) (data out : Bytes) : Prop where
  returns : ∀ stats, ∃ stats', applyHintPatchesToFile bundles source paths file data stats
    (paths.at file) = .ok (some (out, stats'))
  written : ∀ dest report, applyHints bundles source = .ok (some (dest, report)) →
    ∃ tc, dest = some tc ∧ tc.HasFile file out
  single : source = .file data →
    ∃ report, applyHints bundles source = .ok (some (some (.file out), report))

theorem applyHints_single (hc : collectPatches bundles = .ok paths)
    (hrm : takeRmPatch bundles (.file data) [] (paths.at []) = .ok none)
    (happ : applyHintPatchesToFile bundles (.file data) paths [] data [] (paths.at []) =
      .ok (some (out, stats))) :
    applyHints bundles (.file data) = .ok (some (some (.file out), ⟨stats, [[]]⟩)) := by
  simp only [applyHints, hc]
  simp only [bind, Except.bind, hrm, happ]
  rfl

theorem FileOutcome.of_returns (hc : collectPatches bundles = .ok paths)
    (hf : source.HasFile file data) (hpos : ∀ r ∈ paths.at file, Positioned bundles data.length r)
    (hret : ∀ stats, ∃ stats', applyHintPatchesToFile bundles source paths file data stats
      (paths.at file) = .ok (some (out, stats'))) :
    FileOutcome bundles source paths file data out := by
  cases source with
  | file d =>
    obtain ⟨rfl, rfl⟩ := hf
    obtain ⟨stats, happ⟩ := hret []
    have hok := applyHints_single hc (takeRmPatch_none (.file d) [] hpos) happ
    apply FileOutcome.mk hret
    · intro dest report h
      cases hok.symm.trans h
      exact ⟨_, rfl, rfl, rfl⟩
    · intro _
      exact ⟨_, hok⟩
  | dir t =>
    apply FileOutcome.mk hret
    · intro dest report h
      simp only [applyHints, hc, except_bind_ok] at h
      obtain ⟨_, hp, applied, happlied, h⟩ := h
      cases hp
      cases applied with
      | none => cases h
      | some result =>
        cases h
        obtain ⟨_, hall⟩ := applyToEntries_step happlied
        obtain ⟨stats, dest₁, dest₂, hstep, hsub⟩ := hall (file, .file data) hf
        obtain ⟨stats', happ⟩ := hret stats
        cases hstep with
        | rm hrm => cases (takeRmPatch_none (.file data) stats hpos).symm.trans hrm
        | file _ ha hd =>
          cases happ.symm.trans ha
          have hin : (file, Entry.file out) ∈ dest₂.entries := by simp [hd]
          exact ⟨_, rfl, hsub hin⟩
    · intro h
      cases h

/-- Applying positioned patches to a file computes the reference semantics, whatever the order of
the bundles, the hints and the patches. -/
theorem applyHints_reference (hc : collectPatches bundles = .ok paths)
    (hf : source.HasFile file data)
    (hpos : ∀ r ∈ paths.at file, Positioned bundles data.length r) :
    ∃ out text, FileOutcome bundles source paths file data out ∧
      FileReference bundles (paths.at file) data out text ∧
      (∀ i, StartsAt (spansOf (mergeOverlappingPatches (paths.at file))) i ↔
        LeftEnd (spansOf (paths.at file)) i) ∧
      ((∀ r ∈ paths.at file, r.patch.value = none) → out = cutOut data (spansOf (paths.at file))) ∧
      ∀ bundles', SamePatches bundles bundles' → SameKindSameBytes bundles (paths.at file) →
        ∃ paths', collectPatches bundles' = .ok paths' ∧
          FileOutcome bundles' source paths' file data out := by
  have href := rewrite_reference hpos
  have hret := fun stats => applyHintPatchesToFile_rewrite source paths file stats hpos
  have hr : ∀ r ∈ paths.at file, r.Ranged := fun r hr => (hpos r hr).toRanged
  apply Exists.intro _
  apply Exists.intro _
  apply And.intro (FileOutcome.of_returns hc hf hpos hret)
  apply And.intro href
  apply And.intro
  · intro i
    rw [(mergeOverlappingPatches_span hr).1,
      startsAt_sweep (spansOf_proper hr) (sortedRefs_before hr), (spansOf_sortedRefs _).leftEnd]
  apply And.intro href.deletion
  intro bundles' hsame hbytes
  obtain ⟨paths', hc'⟩ := hsame.collectPatches hc
  have hm : Matched bundles bundles' (paths.at file) (paths'.at file) := by
    intro r hr
    obtain ⟨hall, hpath⟩ := (mem_at hc file).1 hr
    obtain ⟨s, hs, hp, hv⟩ := hsame.counterpart hall
    have hsp := (pathOf_counterpart hp hv).trans hpath
    exact ⟨s, (mem_at hc' file).2 ⟨hs, hsp⟩, hp, insertedBytes_counterpart hp hv⟩
  have hm' : ∀ s ∈ paths'.at file, ∃ r ∈ paths.at file, r.patch = s.patch ∧
      (bundleAt bundles r).vocabulary = (bundleAt bundles' s).vocabulary := by
    intro s hs
    obtain ⟨hall, hpath⟩ := (mem_at hc' file).1 hs
    obtain ⟨r, hr, hp, hv⟩ := hsame.symm.counterpart hall
    exact ⟨r, (mem_at hc file).2 ⟨hr, (pathOf_counterpart hp hv).trans hpath⟩, hp, hv⟩
  have hpos' : ∀ s ∈ paths'.at file, Positioned bundles' data.length s := by
    intro s hs
    obtain ⟨r, hr, hp, hv⟩ := hm' s hs
    exact (hpos r hr).counterpart hp.symm hv.symm
  have heq := href.unique (rewrite_reference hpos') hm (fun s hs => by
    obtain ⟨r, hr, hp, hv⟩ := hm' s hs
    exact ⟨r, hr, hp, insertedBytes_counterpart hp hv⟩) hbytes
  have hret' := fun stats => applyHintPatchesToFile_rewrite source paths' file stats hpos'
  exact ⟨paths', hc', FileOutcome.of_returns hc' hf hpos' (heq ▸ hret')⟩

/-- A deletion, a replacement that overlaps it, and an insertion that touches neither. -/
def overlappingBundles : List HintBundle :=
  [{ hints := [{ patches := [{ left := some 1, right := some 3 }] },
      { patches := [{ left := some 2, right := some 4, value := some 0 }] }]
     vocabulary := [[0x58]] },
   { hints := [{ patches := [{ left := some 5, right := some 5, value := some 0 }] }]
     vocabulary := [[0x59]] }]

def overlappingPaths : PathToPatches := (allRefs overlappingBundles).map fun r => ([], r)

theorem applyHints_reference_overlapping :
    ∃ out text, FileOutcome overlappingBundles (.file [0, 1, 2, 3, 4]) overlappingPaths []
        [0, 1, 2, 3, 4] out ∧
      FileReference overlappingBundles (overlappingPaths.at []) [0, 1, 2, 3, 4] out text := by
  have hc : collectPatches overlappingBundles = .ok overlappingPaths := by decide
  have hf : (TestCase.file [0, 1, 2, 3, 4]).HasFile [] [0, 1, 2, 3, 4] := ⟨rfl, rfl⟩
  obtain ⟨out, text, hout, href, _⟩ := applyHints_reference hc hf (by decide)
  exact ⟨out, text, hout, href⟩

example : (applyHints overlappingBundles (.file [0, 1, 2, 3, 4])).toOption.map (·.map Prod.fst) =
    some (some (some (.file [0, 4, 0x59]))) := by decide

end Cvise
