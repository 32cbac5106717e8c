import Cvise.PasteConflict

namespace Cvise
set_option autoImplicit true

variable {bundles : List HintBundle} {refs : List PatchRef} {r : PatchRef} {paths : PathToPatches}
  {source : TestCase}

/-- The text that a patch puts in the place of its range: nothing, a word of its vocabulary, or the
contents of the file that it pastes. -/
def insertedText (bundles : List HintBundle) (source : TestCase) (r : PatchRef) : Bytes :=
  match r.patch.value with
  | none => []
  | some v =>
    if r.op bundles = some pasteOp then
      ((bundleAt bundles r).word v >>= pathOfBytes >>= source.readBytes).toOption.getD []
    else (bundleAt bundles r).vocabulary.getD v []

theorem op_of_word (ho : r.patch.operation = some o) (hw : (bundleAt bundles r).word o = .ok w) :
    r.op bundles = some w := by
  rw [PatchRef.op, ho, Option.bind_some, word_ok.1 hw]

theorem vocabulary_getD (h : (bundleAt bundles r).word v = .ok w) :
    (bundleAt bundles r).vocabulary.getD v [] = w := by
  rw [List.getD_eq_getElem?_getD, word_ok.1 h, Option.getD_some]

theorem insertion_text (h : insertion bundles source paths r = .ok (some ins)) :
    ins = insertedText bundles source r := by
  rw [insertion] at h
  rw [insertedText]
  cases hv : r.patch.value with
  | none =>
    simp only [hv] at h
    cases h
    rfl
  | some v =>
    simp only [hv] at h
    have hword : (do return some (← (bundleAt bundles r).word v) : Except PyErr (Option Bytes)) =
        .ok (some ins) → (bundleAt bundles r).vocabulary.getD v [] = ins := by
      intro h
      obtain ⟨w, hw, h⟩ := except_bind_ok.1 h
      cases h
      exact vocabulary_getD hw
    cases ho : r.patch.operation with
    | none =>
      have hop : r.op bundles = none := by rw [PatchRef.op, ho, Option.bind_none]
      simp only [ho] at h
      simp only [hop, reduceCtorEq, if_false]
      exact (hword h).symm
    | some o =>
      simp only [ho, bind_assoc] at h
      obtain ⟨w, hw, h⟩ := except_bind_ok.1 h
      rw [op_of_word ho hw]
      by_cases hpaste : w = pasteOp
      · subst hpaste
        simp only [pure_bind, if_true, decide_true] at h
        obtain ⟨w', hw', h⟩ := except_bind_ok.1 h
        obtain ⟨file, hfile, h⟩ := except_bind_ok.1 h
        split at h
        · cases h
        · obtain ⟨data, hdata, h⟩ := except_bind_ok.1 h
          cases h
          simp [hw', hfile, hdata, bind, Except.bind, Except.toOption]
      · simp only [pure_bind, hpaste, decide_false, Bool.false_eq_true, if_false] at h
        simp only [Option.some.injEq, hpaste, if_false]
        exact (hword h).symm

theorem insertion_value (h : insertion bundles source paths r = .ok (some ins)) :
    ∀ v ∈ r.patch.value, v < (bundleAt bundles r).vocabulary.length := by
  intro v hv
  have hlt : ∀ w, (bundleAt bundles r).word v = .ok w → v < (bundleAt bundles r).vocabulary.length :=
    fun w hw => (List.getElem?_eq_some_iff.1 (word_ok.1 hw)).1
  simp only [insertion, Option.mem_def.1 hv] at h
  cases ho : r.patch.operation with
  | none =>
    simp only [ho, pure_bind, Bool.false_eq_true, if_false] at h
    obtain ⟨w, hw, _⟩ := except_bind_ok.1 h
    exact hlt w hw
  | some o =>
    simp only [ho, bind_assoc, pure_bind] at h
    obtain ⟨w, _, h⟩ := except_bind_ok.1 h
    split at h
    · obtain ⟨w', hw', _⟩ := except_bind_ok.1 h
      exact hlt w' hw'
    · obtain ⟨w', hw', _⟩ := except_bind_ok.1 h
      exact hlt w' hw'

/-- The patch has a range, and a word for its value. -/
structure Sized (bundles : List HintBundle) (r : PatchRef) : Prop extends r.Ranged where
  value : ∀ v ∈ r.patch.value, v < (bundleAt bundles r).vocabulary.length

/-- What it takes for a patch to go through, and what it does then. -/
structure PatchApplied (bundles : List HintBundle) (source : TestCase) (origData : Bytes)
    (st : FileEdit) (r : PatchRef) (st' : FileEdit) : Prop where
  sized : Sized bundles r
  right_le : r.span.right ≤ origData.length
  startPos : st'.startPos = r.span.right
  newData : st'.newData =
    st.newData ++ (origData.take r.span.left).drop st.startPos ++ insertedText bundles source r

theorem applyPatch_applied
    (h : applyPatch bundles source paths origData st r = .ok (some st')) :
    PatchApplied bundles source origData st r st' := by
  rw [applyPatch] at h
  split at h
  case h_1 left right hl hr =>
    split at h
    case isTrue hc =>
      obtain ⟨ins, hins, h⟩ := except_bind_ok.1 h
      cases ins with
      | none => cases h
      | some ins =>
        cases h
        have hspan : r.span = ⟨left, right, r.stamp⟩ := by
          rw [PatchRef.span, hl, hr, Option.getD_some, Option.getD_some]
        exact
          { sized :=
              { left_some := by simp [hl]
                right_some := by simp [hr]
                left_le := by simpa [hl, hr] using hc.2.2.1
                value := insertion_value hins }
            right_le := hspan ▸ hc.2.2.2
            startPos := by rw [hspan]
            newData := by rw [hspan, insertion_text hins] }
    case isFalse => cases h
  case h_2 => cases h

/-- The loop over the merged patches replaces their ranges by their texts. -/
theorem applyMerged_contents {ms : List PatchRef}
    (h : applyMerged bundles source paths file origData st ms = .ok (some (out, stats))) :
    (∀ m ∈ ms, Sized bundles m ∧ m.span.right ≤ origData.length) ∧
      out = st.newData ++ splice (insertedText bundles source) origData st.startPos (spansOf ms) := by
  induction ms generalizing st with
  | nil =>
    cases h
    exact ⟨by simp, rfl⟩
  | cons m ms ih =>
    rw [applyMerged] at h
    split at h
    case h_1 st' happ =>
      have happlied := applyPatch_applied happ
      obtain ⟨hms, hout⟩ := ih h
      apply And.intro
      · exact List.forall_mem_cons.2 ⟨⟨happlied.sized, happlied.right_le⟩, hms⟩
      · rw [hout, happlied.newData, happlied.startPos]
        simp only [spansOf, List.map_cons, splice, List.append_assoc]
        rfl
    case h_2 => cases h
    case h_3 => cases h

theorem mem_mergeStep {merged : List PatchRef} {cur : PatchRef} (hr : ¬ r.Ranged)
    (h : r = cur ∨ r ∈ merged) : r ∈ mergeStep merged cur := by
  cases merged with
  | nil => simpa [mergeStep] using h
  | cons prev rest =>
    rw [mergeStep]
    split
    case h_1 pl pr cl cr hpl hpr hcl hcr =>
      by_cases hover : max pl cl < min pr cr ∨ max pl cl = min pr cr ∧ cl = cr
      · have hprev : prev.Ranged :=
          ⟨by simp [hpl], by simp [hpr], by simp only [hpl, hpr, Option.getD_some]; omega⟩
        have hcur : cur.Ranged :=
          ⟨by simp [hcl], by simp [hcr], by simp only [hcl, hcr, Option.getD_some]; omega⟩
        have hrest : r ∈ rest := by
          rcases h with rfl | h
          · exact absurd hcur hr
          · rcases List.mem_cons.1 h with rfl | h
            · exact absurd hprev hr
            · exact h
        simp only [if_pos hover]
        split
        · exact List.mem_cons_of_mem _ hrest
        · exact List.mem_cons_of_mem _ hrest
      · simp only [if_neg hover]
        simpa using h
    case h_2 => simpa using h

theorem mem_foldl_mergeStep (merged : List PatchRef) (hr : ¬ r.Ranged)
    (h : r ∈ refs ∨ r ∈ merged) : r ∈ refs.foldl mergeStep merged := by
  induction refs generalizing merged with
  | nil => simpa using h
  | cons s rs ih =>
    apply ih
    rcases h with h | h
    · rcases List.mem_cons.1 h with rfl | h
      · exact .inr (mem_mergeStep hr (.inl rfl))
      · exact .inl h
    · exact .inr (mem_mergeStep hr (.inr h))

theorem ranged_of_merged (h : ∀ m ∈ mergeOverlappingPatches refs, m.Ranged) :
    ∀ r ∈ refs, r.Ranged := by
  intro r hr
  by_contra hn
  have hmem := mem_foldl_mergeStep [] hn (.inl (mem_sortedRefs.2 hr))
  exact hn (h r (List.mem_reverse.2 hmem))

/-- A file is written only if all its patches lie within it, and then it holds the reference
semantics of the sorted ones. -/
theorem applyHintPatchesToFile_contents
    (h : applyHintPatchesToFile bundles source paths file data stats refs = .ok (some (out, stats'))) :
    (∀ r ∈ refs, r.Ranged ∧ r.span.right ≤ data.length) ∧
      (∀ m ∈ mergeOverlappingPatches refs, Sized bundles m) ∧
      out = rewriteSpans (insertedText bundles source) data (spansOf (sortedRefs refs)) := by
  obtain ⟨hmerged, hout⟩ := applyMerged_contents h
  have hr := ranged_of_merged fun m hm => (hmerged m hm).1.toRanged
  obtain ⟨hspan, _⟩ := mergeOverlappingPatches_span hr
  have hsorted : ∀ x ∈ spansOf (sortedRefs refs), x.right ≤ data.length := by
    apply right_le_of_sweep
    intro x hx
    rw [← hspan] at hx
    obtain ⟨m, hm, rfl⟩ := List.mem_map.1 hx
    exact (hmerged m hm).2
  apply And.intro
  · intro r hmem
    exact ⟨hr r hmem, hsorted r.span (List.mem_map_of_mem (mem_sortedRefs.2 hmem))⟩
  apply And.intro
  · exact fun m hm => (hmerged m hm).1
  · rw [hout, hspan]
    exact splice_sweep (spansOf_proper hr) (sortedRefs_before hr) hsorted

/-- What a patch asks for: a text in place of a range. -/
structure Edit where
  left : Nat
  right : Nat
  isReplacement : Bool
  text : Bytes
deriving DecidableEq

namespace Edit

def key (e : Edit) : Nat ×ₗ Natᵒᵈ ×ₗ Bool :=
  toLex (e.left, toLex (OrderDual.toDual e.right, e.isReplacement))

def span (e : Edit) : Span Bytes := ⟨e.left, e.right, e.text⟩

end Edit

def sortedSpans (edits : List Edit) : List (Span Bytes) :=
  (edits.insertionSort fun a b => a.key ≤ b.key).map Edit.span

/-- The contents of a file after the edits, which depend on nothing else. -/
def editedFile (data : Bytes) (edits : List Edit) : Bytes :=
  rewriteSpans id data (sortedSpans edits)

/-- A patch with its texts looked up in its bundle and in the files of the source. -/
def resolve (bundles : List HintBundle) (source : TestCase) (r : PatchRef) : Edit :=
  ⟨r.patch.left.getD 0, r.patch.right.getD 0, r.patch.value.isSome, insertedText bundles source r⟩

theorem resolve_key_le {s : PatchRef} (hr : r.Ranged) (hs : s.Ranged) :
    patchMergeSortingKey r ≤ patchMergeSortingKey s ↔
      (resolve bundles source r).key ≤ (resolve bundles source s).key := by
  rw [hr.key_le hs]
  simp only [Edit.key, resolve, PatchRef.span, Prod.Lex.toLex_le_toLex, OrderDual.toDual_lt_toDual,
    OrderDual.toDual_inj]
  tauto

theorem sortedSpans_resolve (h : ∀ r ∈ refs, r.Ranged) :
    sortedSpans (refs.map (resolve bundles source)) =
      (spansOf (sortedRefs refs)).map (Span.map (insertedText bundles source)) := by
  have hsort : (refs.map (resolve bundles source)).insertionSort (fun a b => a.key ≤ b.key) =
      (sortedRefs refs).map (resolve bundles source) := by
    refine (List.map_insertionSort _ _ (resolve bundles source) refs ?_).symm
    intro r hr s hs
    exact resolve_key_le (h r hr) (h s hs)
  rw [sortedSpans, hsort, spansOf, List.map_map, List.map_map]
  rfl

/-- The edits replace the ranges of the patches by their texts. -/
theorem editedFile_resolve (h : ∀ r ∈ refs, r.Ranged) :
    editedFile data (refs.map (resolve bundles source)) =
      rewriteSpans (insertedText bundles source) data (spansOf (sortedRefs refs)) := by
  rw [editedFile, sortedSpans_resolve h, rewriteSpans_map]
  rfl

theorem not_removed_of_takeRmPatch (h : takeRmPatch bundles entry stats refs = .ok none) :
    ¬ Removed bundles refs := by
  induction refs with
  | nil => simp [Removed]
  | cons r rs ih =>
    have hcons : r.op bundles ≠ some rmOp → ¬ Removed bundles rs → ¬ Removed bundles (r :: rs) := by
      rintro hr hrs ⟨s, hs, hop⟩
      rcases List.mem_cons.1 hs with rfl | hs
      · exact hr hop
      · exact hrs ⟨s, hs, hop⟩
    rw [takeRmPatch] at h
    cases ho : r.patch.operation with
    | none =>
      rw [ho] at h
      exact hcons (by rw [PatchRef.op, ho, Option.bind_none]; simp) (ih h)
    | some o =>
      simp only [ho, except_bind_ok] at h
      obtain ⟨w, hw, h⟩ := h
      split at h
      case isTrue hne =>
        exact hcons (by rw [op_of_word ho hw]; simpa using hne) (ih h)
      case isFalse => cases h

/-- What an entry of the source becomes in the destination. -/
def entryOutcome (bundles : List HintBundle) (source : TestCase) (paths : PathToPatches)
    (e : RelPath × Entry) : Option (RelPath × Entry) :=
  if Removed bundles (paths.at e.1) then none
  else match e.2 with
    | .file data =>
      some (e.1, .file (editedFile data ((paths.at e.1).map (resolve bundles source))))
    | .dir => some (e.1, .dir)
    | .symlink _ _ => none

theorem EntryStep.outcome (h : EntryStep bundles source paths path stats dest entry dest') :
    dest'.entries = dest.entries ++ (entryOutcome bundles source paths (path, entry)).toList := by
  cases h with
  | rm h => simp [entryOutcome, takeRmPatch_some h]
  | symlink h => simp [entryOutcome]
  | dir h hd => simp [entryOutcome, not_removed_of_takeRmPatch h, hd]
  | file h ha hd =>
    obtain ⟨hrefs, _, hout⟩ := applyHintPatchesToFile_contents ha
    rw [← editedFile_resolve fun r hr => (hrefs r hr).1] at hout
    simp [entryOutcome, not_removed_of_takeRmPatch h, hd, hout]

theorem applyToEntries_outcome
    (h : applyToEntries bundles source paths dest report es = .ok (some (dest', report'))) :
    dest'.entries = dest.entries ++ es.filterMap (entryOutcome bundles source paths) := by
  induction es generalizing dest report with
  | nil =>
    cases h
    simp
  | cons e es ih =>
    rw [applyToEntries, except_bind_ok] at h
    obtain ⟨applied, happlied, h⟩ := h
    cases applied with
    | none => cases h
    | some next =>
      rw [ih h, (applyToEntry_step happlied).outcome, List.append_assoc, List.filterMap_cons]
      cases entryOutcome bundles source paths (e.1, e.2) with
      | none => rfl
      | some e' => rfl

/-- The destination lists what the entries of the source become, and the report lists the
destination. -/
theorem applyHints_outcome (h : applyHints bundles (.dir t) = .ok (some (dest, report))) :
    ∃ paths tree, collectPatches bundles = .ok paths ∧ dest = some (.dir tree) ∧
      tree.entries = t.entries.filterMap (entryOutcome bundles (.dir t) paths) ∧
      report.writtenPaths = tree.entries.map Prod.fst := by
  rw [applyHints, except_bind_ok] at h
  obtain ⟨paths, hpaths, h⟩ := h
  obtain ⟨applied, happlied, h⟩ := except_bind_ok.1 h
  cases applied with
  | none => cases h
  | some result =>
    cases h
    have hentries := applyToEntries_outcome happlied
    have hwritten := applyToEntries_written happlied rfl
    exact ⟨paths, result.1, hpaths, rfl, hentries, hwritten⟩

theorem DirTree.entry_unique {t : DirTree} (h : (p, e) ∈ t.entries) (h' : (p, e') ∈ t.entries) :
    e = e' := by
  have hnodup : (t.entries.map Prod.fst).Nodup :=
    List.pairwise_map.2 (t.sorted.imp fun hlt => hlt.ne)
  exact congrArg Prod.snd (List.inj_on_of_nodup_map hnodup h h' rfl)

theorem entryOutcome_dir : entryOutcome bundles source paths e = some (p, .dir) ↔
    e = (p, .dir) ∧ ¬ Removed bundles (paths.at p) := by
  obtain ⟨q, entry⟩ := e
  rw [entryOutcome]
  by_cases hr : Removed bundles (paths.at q)
  · rw [if_pos hr]
    simp only [reduceCtorEq, false_iff, not_and, not_not, Prod.mk.injEq]
    rintro ⟨rfl, _⟩
    exact hr
  · rw [if_neg hr]
    cases entry with
    | file data => simp
    | dir =>
      simp only [Option.some.injEq, Prod.mk.injEq, and_true]
      constructor
      · rintro rfl
        exact ⟨rfl, hr⟩
      · exact And.left
    | symlink text dest => simp

theorem entryOutcome_file : entryOutcome bundles source paths e = some (p, .file out) ↔
    ∃ data, e = (p, .file data) ∧ ¬ Removed bundles (paths.at p) ∧
      out = editedFile data ((paths.at p).map (resolve bundles source)) := by
  obtain ⟨q, entry⟩ := e
  rw [entryOutcome]
  by_cases hr : Removed bundles (paths.at q)
  · rw [if_pos hr]
    simp only [reduceCtorEq, false_iff, not_exists, not_and, Prod.mk.injEq]
    rintro data ⟨rfl, _⟩ hn
    exact absurd hr hn
  · rw [if_neg hr]
    cases entry with
    | file data =>
      simp only [Option.some.injEq, Prod.mk.injEq, Entry.file.injEq]
      constructor
      · rintro ⟨rfl, rfl⟩
        exact ⟨data, ⟨rfl, rfl⟩, hr, rfl⟩
      · rintro ⟨_, ⟨rfl, rfl⟩, _, rfl⟩
        exact ⟨rfl, rfl⟩
    | dir => simp
    | symlink text dest => simp

theorem entryOutcome_symlink : entryOutcome bundles source paths e ≠ some (p, .symlink text dest) := by
  rw [entryOutcome]
  split
  · simp
  · split <;> simp

/-- An edit looks at no file but the one it pastes. -/
theorem resolve_congr {source' : TestCase}
    (h : ∀ file ∈ r.pasteTarget bundles, source'.readBytes file = source.readBytes file) :
    resolve bundles source' r = resolve bundles source r := by
  have htext : insertedText bundles source' r = insertedText bundles source r := by
    rw [insertedText, insertedText]
    cases hv : r.patch.value with
    | none => rfl
    | some v =>
      by_cases hpaste : r.op bundles = some pasteOp
      · simp only [if_pos hpaste]
        cases hfile : (bundleAt bundles r).word v >>= pathOfBytes with
        | error e => rfl
        | ok file =>
          obtain ⟨w, hw, hpath⟩ := except_bind_ok.1 hfile
          have htarget : file ∈ r.pasteTarget bundles := by
            rw [PatchRef.pasteTarget, if_pos hpaste, hv, Option.bind_some, word_ok.1 hw,
              Option.bind_some, hpath]
            rfl
          simp only [bind, Except.bind, h file htarget]
      · simp only [if_neg hpaste]
  rw [resolve, resolve, htext]

theorem editedFile_nil (data : Bytes) : editedFile data [] = data := by
  have hcell : cell id data ([] : List (Span Bytes)) = fun i => data[i]?.toList := by
    funext i
    simp [cell, groupText, LeftEnd, StartsAt, Covered]
  have hall := flatMap_getElem? data 0 (data.length + 1)
  rw [List.drop_zero, List.take_of_length_le (by omega)] at hall
  rw [editedFile, sortedSpans, List.insertionSort_nil, List.map_nil, rewriteSpans, hcell,
    List.range_eq_range']
  exact hall

/-- What stays of a directory, and what the contents of its files depend on. -/
structure EntryFrame (bundles : List HintBundle) (t : DirTree) (paths : PathToPatches)
    (dest : DirTree) : Prop where
  present : ∀ p, p ∈ dest.entries.map Prod.fst ↔
    p ∈ t.entries.map Prod.fst ∧ ¬ Removed bundles (paths.at p)
  dirs : ∀ p, (p, .dir) ∈ dest.entries ↔ (p, .dir) ∈ t.entries ∧ ¬ Removed bundles (paths.at p)
  files : ∀ p, (∃ out, (p, .file out) ∈ dest.entries) ↔
    (∃ data, (p, .file data) ∈ t.entries) ∧ ¬ Removed bundles (paths.at p)
  untouched : ∀ p data, (p, .file data) ∈ t.entries → paths.at p = [] →
    (p, .file data) ∈ dest.entries
  /-- Any source with the same pasted files gives the same edits. -/
  contents : ∀ p out, (p, .file out) ∈ dest.entries → ∃ data, (p, .file data) ∈ t.entries ∧
    ∀ source : TestCase, (∀ r ∈ paths.at p, ∀ file ∈ r.pasteTarget bundles,
      source.readBytes file = TestCase.readBytes (.dir t) file) →
    out = editedFile data ((paths.at p).map (resolve bundles source))

theorem mem_paths {es : List (RelPath × Entry)} (hplain : ∀ e ∈ es, e.2.isSymlink = false) :
    p ∈ es.map Prod.fst ↔ (p, .dir) ∈ es ∨ ∃ data, (p, .file data) ∈ es := by
  constructor
  · intro hp
    obtain ⟨⟨q, entry⟩, he, hq⟩ := List.mem_map.1 hp
    cases hq
    cases entry with
    | file data => exact .inr ⟨data, he⟩
    | dir => exact .inl he
    | symlink text dest => cases hplain _ he
  · rintro (he | ⟨data, he⟩)
    · exact List.mem_map_of_mem he
    · exact List.mem_map_of_mem he

theorem EntryFrame.of_entries {t dest : DirTree} (hplain : ∀ e ∈ t.entries, e.2.isSymlink = false)
    (h : dest.entries = t.entries.filterMap (entryOutcome bundles (.dir t) paths)) :
    EntryFrame bundles t paths dest := by
  have hmem : ∀ e, e ∈ dest.entries ↔
      ∃ e' ∈ t.entries, entryOutcome bundles (.dir t) paths e' = some e := by
    intro e
    rw [h, List.mem_filterMap]
  have hdirs : ∀ p, (p, .dir) ∈ dest.entries ↔
      (p, .dir) ∈ t.entries ∧ ¬ Removed bundles (paths.at p) := by
    intro p
    simp only [hmem, entryOutcome_dir]
    constructor
    · rintro ⟨_, he, rfl, hr⟩
      exact ⟨he, hr⟩
    · rintro ⟨he, hr⟩
      exact ⟨_, he, rfl, hr⟩
  have hfiles : ∀ p out, (p, .file out) ∈ dest.entries ↔
      ∃ data, (p, .file data) ∈ t.entries ∧ ¬ Removed bundles (paths.at p) ∧
        out = editedFile data ((paths.at p).map (resolve bundles (.dir t))) := by
    intro p out
    simp only [hmem, entryOutcome_file]
    constructor
    · rintro ⟨_, he, data, rfl, hout⟩
      exact ⟨data, he, hout⟩
    · rintro ⟨data, he, hout⟩
      exact ⟨_, he, data, rfl, hout⟩
  have hkept : ∀ p, (∃ out, (p, .file out) ∈ dest.entries) ↔
      (∃ data, (p, .file data) ∈ t.entries) ∧ ¬ Removed bundles (paths.at p) := by
    intro p
    simp only [hfiles]
    constructor
    · rintro ⟨out, data, he, hr, _⟩
      exact ⟨⟨data, he⟩, hr⟩
    · rintro ⟨⟨data, he⟩, hr⟩
      exact ⟨_, data, he, hr, rfl⟩
  have hplain' : ∀ e ∈ dest.entries, e.2.isSymlink = false := by
    rintro ⟨p, entry⟩ he
    cases entry with
    | file data => rfl
    | dir => rfl
    | symlink text dest =>
      obtain ⟨e', _, he'⟩ := (hmem _).1 he
      exact absurd he' entryOutcome_symlink
  exact
    { present := by
        intro p
        rw [mem_paths hplain', mem_paths hplain, hdirs, hkept, ← or_and_right]
      dirs := hdirs
      files := hkept
      untouched := by
        intro p data he hnone
        refine (hfiles p data).2 ⟨data, he, by simp [hnone, Removed], ?_⟩
        rw [hnone, List.map_nil, editedFile_nil]
      contents := by
        intro p out he
        obtain ⟨data, hdata, _, hout⟩ := (hfiles p out).1 he
        apply Exists.intro data
        apply And.intro hdata
        intro source hsource
        rw [hout, List.map_congr_left fun r hr => resolve_congr (hsource r hr)] }

theorem applyHints_frame (bundles : List HintBundle) (t : DirTree)
    (hplain : ∀ e ∈ t.entries, e.2.isSymlink = false) :
    ∀ dest report, applyHints bundles (.dir t) = .ok (some (dest, report)) →
      ∃ paths tree, collectPatches bundles = .ok paths ∧ dest = some (.dir tree) ∧
        EntryFrame bundles t paths tree ∧ report.writtenPaths = tree.entries.map Prod.fst := by
  intro dest report h
  obtain ⟨paths, tree, hpaths, hdest, hentries, hwritten⟩ := applyHints_outcome h
  exact ⟨paths, tree, hpaths, hdest, .of_entries hplain hentries, hwritten⟩

/-- A directory is removed with what it holds, one file pastes another, and one has no patches. -/
def pastingBundles : List HintBundle :=
  [{ hints := [{ patches := [{ path := some 0, operation := some 1 },
        { path := some 2, operation := some 1 }] },
      { patches := [⟨some 3, some 1, some 2, some 5, some 4⟩] }]
     vocabulary := [[0x61], rmOp, [0x61, 0x2f, 0x62], [0x63], [0x64], pasteOp] }]

def fourEntries : DirTree where
  entries := [([['a']], .dir), ([['a'], ['b']], .file [0]), ([['c']], .file [1, 2, 3]),
    ([['d']], .file [4, 5])]
  sorted := by decide
  rooted := by decide

def pastedTree : DirTree where
  entries := [([['c']], .file [1, 4, 5, 3]), ([['d']], .file [4, 5])]
  sorted := by decide
  rooted := by decide

theorem applyHints_pasting : applyHints pastingBundles (.dir fourEntries) =
    .ok (some (some (.dir pastedTree), ⟨[([], 0)], [[['c']], [['d']]]⟩)) := by decide

theorem applyHints_frame_pasting : ∃ paths tree, TestCase.dir pastedTree = .dir tree ∧
    EntryFrame pastingBundles fourEntries paths tree ∧
      [[['c']], [['d']]] = tree.entries.map Prod.fst := by
  obtain ⟨paths, tree, _, hdest, hframe, hwritten⟩ :=
    applyHints_frame pastingBundles fourEntries (by decide) _ _ applyHints_pasting
  exact ⟨paths, tree, Option.some.inj hdest, hframe, hwritten⟩

end Cvise
