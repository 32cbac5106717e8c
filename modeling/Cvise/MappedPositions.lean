import Cvise.SubtractHints

namespace Cvise
set_option autoImplicit true

variable {bundles : List HintBundle} {refs : List PatchRef} {r : PatchRef} {paths : PathToPatches}
  {source dest : TestCase}

/-- A file of the source that is in the destination too went through the application of its
patches. -/
theorem applyHints_file (h : applyHints bundles source = .ok (some (some dest, report)))
    (hc : collectPatches bundles = .ok paths) (hf : source.HasFile file data)
    (hd : dest.HasFile file out) :
    ∃ stats stats', applyHintPatchesToFile bundles source paths file data stats (paths.at file) =
      .ok (some (out, stats')) := by
  simp only [applyHints, hc, except_bind_ok] at h
  obtain ⟨_, hp, h⟩ := h
  cases hp
  cases source with
  | file d =>
    obtain ⟨rfl, rfl⟩ := hf
    obtain ⟨taken, _, h⟩ := except_bind_ok.1 h
    cases taken with
    | some stats => cases h
    | none =>
      obtain ⟨edited, hedit, h⟩ := except_bind_ok.1 h
      cases edited with
      | none => cases h
      | some edit =>
        cases h
        obtain ⟨_, rfl⟩ := hd
        exact ⟨_, _, hedit⟩
  | dir t =>
    obtain ⟨applied, happlied, h⟩ := except_bind_ok.1 h
    cases applied with
    | none => cases h
    | some result =>
      cases h
      have hmem : (file, Entry.file out) ∈ result.1.entries := hd
      obtain ⟨_, hall⟩ := applyToEntries_step happlied
      obtain ⟨stats, dest₁, dest₂, hstep, hsub⟩ := hall (file, .file data) hf
      cases hstep with
      | rm hrm =>
        have hremoved := takeRmPatch_some hrm
        rw [applyToEntries_outcome happlied] at hmem
        obtain ⟨e, _, he⟩ := List.mem_filterMap.1 ((List.mem_append.1 hmem).resolve_left (by
          simp [DirTree.empty]))
        obtain ⟨_, _, hkept, _⟩ := entryOutcome_file.1 he
        exact absurd hremoved hkept
      | file _ ha hd' =>
        have hin : (file, Entry.file _) ∈ result.1.entries := hsub (by
          rw [hd']
          exact List.mem_append_right _ (List.mem_singleton.2 rfl))
        cases DirTree.entry_unique hmem hin
        exact ⟨_, _, ha⟩

/-- What the output holds before the byte at offset `q` of the file, if that byte stays: what the
bytes before it became, and the text put between. -/
def outputBefore (bundles : List HintBundle) (source : TestCase) (refs : List PatchRef)
    (data : Bytes) (q : Nat) : Bytes :=
  (List.range q).flatMap (cell (insertedText bundles source) data (spansOf (sortedRefs refs))) ++
    groupText (insertedText bundles source) (spansOf (sortedRefs refs)) q

/-- The mapping takes the offset `q` to the offset in the output, whatever else it is asked for. -/
def MapsToOutput (bundles : List HintBundle) (source : TestCase) (refs : List PatchRef)
    (data : Bytes) (q : Nat) : Prop :=
  ∀ queries, q ∈ queries → ∃ mapping,
    calcPositionsMappingForPatches queries refs bundles = .ok mapping ∧
      lookupKey mapping q = .ok ((outputBefore bundles source refs data q).length : Int)

/-- Exactly when the mapping agrees with the application: the merged patches up to the byte insert
in total as much as the words that their values name are long. -/
theorem mapsToOutput_iff (h : applyHints bundles source = .ok (some (some dest, report)))
    (hc : collectPatches bundles = .ok paths) (hf : source.HasFile file data)
    (hd : dest.HasFile file out) (hq : data[q]? = some x)
    (hn : ¬ Covered (spansOf (paths.at file)) q) :
    (∃ after, out = outputBefore bundles source (paths.at file) data q ++ x :: after) ∧
      (MapsToOutput bundles source (paths.at file) data q ↔
        insertedUpTo (insertedBytes bundles) q
            (spansOf (mergeOverlappingPatches (paths.at file))) =
          insertedUpTo (insertedText bundles source) q
            (spansOf (mergeOverlappingPatches (paths.at file)))) := by
  obtain ⟨_, _, happ⟩ := applyHints_file h hc hf hd
  obtain ⟨hrefs, hsized, hout⟩ := applyHintPatchesToFile_contents happ
  have hr : ∀ r ∈ paths.at file, r.Ranged := fun r hr => (hrefs r hr).1
  have hsep := mergeOverlappingPatches_separated hr
  have hcov : ¬ Covered (spansOf (sortedRefs (paths.at file))) q := by
    rwa [(spansOf_sortedRefs _).covered]
  have hlt : q < data.length := (List.getElem?_eq_some_iff.1 hq).1
  have htrue : shifted (insertedText bundles source) q 0
      (spansOf (mergeOverlappingPatches (paths.at file))) =
      (outputBefore bundles source (paths.at file) data q).length := by
    rw [(mergeOverlappingPatches_span hr).1, shifted_sweep (spansOf_proper hr)
      (sortedRefs_before hr) hlt.le (fun h => absurd h hcov), if_neg hcov, outputBefore,
      List.length_append, Int.natCast_add]
  have hdiff := shifted_sub (f := insertedBytes bundles) (g := insertedText bundles source)
    (q := q) hsep 0 0
  apply And.intro
  · rw [hout]
    exact rewriteSpans_at hq hcov
  · constructor
    · intro hmaps
      obtain ⟨mapping, hok, hlook⟩ := hmaps [q] List.mem_cons_self
      obtain ⟨mapping', hok', hall⟩ := calcPositionsMapping_shifted [q] hsized
      cases hok.symm.trans hok'
      have heq := (hall q List.mem_cons_self).symm.trans hlook
      rw [Except.ok.injEq] at heq
      omega
    · intro hsum queries hmem
      obtain ⟨mapping, hok, hall⟩ := calcPositionsMapping_shifted queries hsized
      refine ⟨mapping, hok, (hall q hmem).trans ?_⟩
      rw [Except.ok.injEq]
      omega

def pastingPaths : PathToPatches :=
  [([['a']], ⟨{ path := some 0, operation := some 1 }, 0, 0⟩),
    ([['a'], ['b']], ⟨{ path := some 2, operation := some 1 }, 0, 0⟩),
    ([['c']], ⟨⟨some 3, some 1, some 2, some 5, some 4⟩, 0, 1⟩)]

theorem collectPatches_pasting : collectPatches pastingBundles = .ok pastingPaths := by decide

/-- The name of the pasted file is as long as its contents. -/
def evenBundles : List HintBundle :=
  [{ hints := [{ patches := [⟨some 0, some 1, some 2, some 2, some 1⟩] }]
     vocabulary := [[0x63], [0x64, 0x65], pasteOp] }]

def evenPaths : PathToPatches := [([['c']], ⟨⟨some 0, some 1, some 2, some 2, some 1⟩, 0, 0⟩)]

def evenEntries : DirTree where
  entries := [([['c']], .file [1, 2, 3]), ([['d', 'e']], .file [4, 5])]
  sorted := by decide
  rooted := by decide

def evenPasted : DirTree where
  entries := [([['c']], .file [1, 4, 5, 3]), ([['d', 'e']], .file [4, 5])]
  sorted := by decide
  rooted := by decide

theorem applyHints_even : applyHints evenBundles (.dir evenEntries) =
    .ok (some (some (.dir evenPasted), ⟨[([], 1)], [[['c']], [['d', 'e']]]⟩)) := by decide

/-- The byte behind the paste goes to the offset 3. -/
theorem mapsToOutput_iff_behindPaste :
    MapsToOutput evenBundles (.dir evenEntries) (evenPaths.at [['c']]) [1, 2, 3] 2 ∧
      (outputBefore evenBundles (.dir evenEntries) (evenPaths.at [['c']]) [1, 2, 3] 2).length =
        3 := by
  have hpaths : collectPatches evenBundles = .ok evenPaths := by decide
  obtain ⟨_, hiff⟩ := mapsToOutput_iff (q := 2) applyHints_even hpaths
    (show (TestCase.dir evenEntries).HasFile [['c']] [1, 2, 3] by
      simp [TestCase.HasFile, evenEntries])
    (show (TestCase.dir evenPasted).HasFile [['c']] [1, 4, 5, 3] by
      simp [TestCase.HasFile, evenPasted]) rfl (by decide)
  exact ⟨hiff.2 (by decide), by decide⟩

/-- The mapping counts the bytes of the name of the pasted file. -/
theorem pasted_not_mapped : ¬ ∀ (bundles : List HintBundle) (source dest : TestCase)
    (report : HintApplicationReport) (paths : PathToPatches) (file : RelPath) (data out : Bytes)
    (q : Nat), applyHints bundles source = .ok (some (some dest, report)) →
      collectPatches bundles = .ok paths → source.HasFile file data → dest.HasFile file out →
      q < data.length → ¬ Covered (spansOf (paths.at file)) q →
      MapsToOutput bundles source (paths.at file) data q := by
  intro hclaim
  have hmaps := hclaim pastingBundles (.dir fourEntries) (.dir pastedTree) _ pastingPaths [['c']]
    [1, 2, 3] [1, 4, 5, 3] 2 applyHints_pasting collectPatches_pasting
    (by simp [TestCase.HasFile, fourEntries]) (by simp [TestCase.HasFile, pastedTree]) (by decide)
    (by decide)
  obtain ⟨mapping, hok, hlook⟩ := hmaps [2] List.mem_cons_self
  have hmapping : calcPositionsMappingForPatches [2] (pastingPaths.at [['c']]) pastingBundles =
      .ok [(2, 2)] := by decide
  cases hok.symm.trans hmapping
  have hlength : (outputBefore pastingBundles (.dir fourEntries) (pastingPaths.at [['c']])
      [1, 2, 3] 2).length = 3 := by decide
  rw [hlength] at hlook
  cases hlook

end Cvise
