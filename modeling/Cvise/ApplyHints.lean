import Cvise.Hint
import Cvise.Outcome
import Cvise.TestCase
import Mathlib.Order.WithBot

namespace Cvise
set_option autoImplicit true

/-- `_PatchWithBundleRef`. -/
structure PatchRef where
  patch : Patch
  bundleId : Nat
  hintId : Nat
deriving DecidableEq

def bundleAt (bundles : List HintBundle) (r : PatchRef) : HintBundle :=
  bundles.getD r.bundleId { hints := [] }

def hintRefs (bundleId : Nat) (h : Hint × Nat) : List PatchRef :=
  h.1.patches.map fun p => ⟨p, bundleId, h.2⟩

/-- All patches of all hints, in the order the loops of `apply_hints` meet them. -/
def allRefs (bundles : List HintBundle) : List PatchRef :=
  bundles.zipIdx.flatMap fun b => b.1.hints.zipIdx.flatMap (hintRefs b.2)

/-- `path_to_patches`, as the list of its items. -/
abbrev PathToPatches := List (RelPath × PatchRef)

def collectPatches (bundles : List HintBundle) : Except PyErr PathToPatches :=
  (allRefs bundles).mapM fun r => do
    let path ← (bundleAt bundles r).pathOf r.patch
    return (path, r)

/-- `path_to_patches.get(path, [])`. -/
def PathToPatches.at (ps : PathToPatches) (path : RelPath) : List PatchRef :=
  (ps.filter (·.1 = path)).map Prod.snd

/-- The key `(left, -right, is_replacement)` in which absent ends come first. -/
def patchMergeSortingKey (r : PatchRef) : WithBot Nat ×ₗ WithBot (Natᵒᵈ) ×ₗ Bool :=
  toLex (r.patch.left, toLex (r.patch.right.map OrderDual.toDual, r.patch.value.isSome))

/-- `msgspec.structs.replace(prev.patch, right=right)`. -/
def PatchRef.replaceRight (prev : PatchRef) (right : Nat) : PatchRef :=
  { prev with patch := { prev.patch with right := some right } }

/-- One patch of the loop in `_merge_overlapping_patches`, the merged list newest first. -/
def mergeStep (merged : List PatchRef) (cur : PatchRef) : List PatchRef :=
  match merged with
  | [] => [cur]
  | prev :: rest =>
    match prev.patch.left, prev.patch.right, cur.patch.left, cur.patch.right with
    | some pl, some pr, some cl, some cr =>
      let xl := max pl cl
      let xr := min pr cr
      if xl < xr ∨ xl = xr ∧ cl = cr then
        if cr > pr then prev.replaceRight cr :: rest
        else prev :: rest
      else cur :: prev :: rest
    | _, _, _, _ => cur :: prev :: rest

def mergeOverlappingPatches (patches : List PatchRef) : List PatchRef :=
  let sorted := patches.insertionSort fun r s => patchMergeSortingKey r ≤ patchMergeSortingKey s
  (sorted.foldl mergeStep []).reverse

/-- `stats[name] += delta` after `stats.setdefault(name, 0)`. -/
def addStat (stats : Dict Str Int) (name : Str) (delta : Int) : Dict Str Int :=
  if stats.any (·.1 = name) then
    stats.map fun s => if s.1 = name then (s.1, s.2 + delta) else s
  else stats ++ [(name, delta)]

def rmOp : Bytes := [0x72, 0x6d]

def pasteOp : Bytes := [0x70, 0x61, 0x73, 0x74, 0x65]

/-- `_take_rm_patch`: the statistics if some patch deletes the entry. -/
def takeRmPatch (bundles : List HintBundle) (entry : Entry) (stats : Dict Str Int) :
    List PatchRef → Except PyErr (Option (Dict Str Int))
  | [] => .ok none
  | r :: rs => do
    let bundle := bundleAt bundles r
    match r.patch.operation with
    | none => takeRmPatch bundles entry stats rs
    | some o =>
      if (← bundle.word o) ≠ rmOp then takeRmPatch bundles entry stats rs
      else
        let size : Int := if entry.isFile then entry.lstatSize else 0
        return some (addStat stats bundle.passUserVisibleName (-size))

def hasPatchesFromOtherHints (r : PatchRef) (others : List PatchRef) : Bool :=
  others.any fun o => o.bundleId ≠ r.bundleId ∨ o.hintId ≠ r.hintId

/-- What a patch inserts; nothing at all stands for the conflict that `apply_hints` gives up on. -/
def insertion (bundles : List HintBundle) (testCase : TestCase) (paths : PathToPatches)
    (r : PatchRef) : Except PyErr (Option Bytes) := do
  let bundle := bundleAt bundles r
  match r.patch.value with
  | none => return some []
  | some v =>
    let isPaste ← match r.patch.operation with
      | none => pure false
      | some o => do pure ((← bundle.word o) = pasteOp)
    if isPaste then
      let insPath ← bundle.word v >>= pathOfBytes
      if hasPatchesFromOtherHints r (paths.at insPath) then return none
      return some (← testCase.readBytes insPath)
    else
      return some (← bundle.word v)

structure FileEdit where
  newData : Bytes
  startPos : Nat
  stats : Dict Str Int
deriving DecidableEq

/-- The body of the `try` in `_apply_hint_patches_to_file`. -/
def applyPatch (bundles : List HintBundle) (testCase : TestCase) (paths : PathToPatches)
    (origData : Bytes) (st : FileEdit) (r : PatchRef) : Except PyErr (Option FileEdit) :=
  match r.patch.left, r.patch.right with
  | some left, some right =>
    if st.startPos ≤ left ∧ left ≤ origData.length ∧ left ≤ right ∧ right ≤ origData.length then do
      let name := (bundleAt bundles r).passUserVisibleName
      match ← insertion bundles testCase paths r with
      | none => return none
      | some toInsert =>
        let stats := addStat st.stats name ((left : Int) - right)
        return some
          { newData := st.newData ++ (origData.take left).drop st.startPos ++ toInsert
            startPos := right
            stats := addStat stats name toInsert.length }
    else .error .assertionError
  | _, _ => .error .assertionError

def natStr (n : Nat) : Str := (Nat.repr n).toList

def optStr : Option Nat → Str
  | none => "None".toList
  | some n => natStr n

/-- `repr(patch)`. -/
def Patch.repr (p : Patch) : Str :=
  "Patch(path=".toList ++ optStr p.path ++ ", left=".toList ++ optStr p.left ++
    ", right=".toList ++ optStr p.right ++ ", operation=".toList ++ optStr p.operation ++
    ", value=".toList ++ optStr p.value ++ ")".toList

/-- The text of the `RuntimeError` that any failure while applying a patch turns into, with the
file's path relative to the test case. -/
def applyFailure (p : Patch) (passName : Str) (file : RelPath) (size : Nat) : Str :=
  "Failure while applying patch ".toList ++ p.repr ++ " from pass \"".toList ++ passName ++
    "\" on file \"".toList ++ strOfPath file ++ "\" with size ".toList ++ natStr size

def applyMerged (bundles : List HintBundle) (testCase : TestCase) (paths : PathToPatches)
    (file : RelPath) (origData : Bytes) (st : FileEdit) :
    List PatchRef → Except PyErr (Option (Bytes × Dict Str Int))
  | [] => .ok (some (st.newData ++ origData.drop st.startPos, st.stats))
  | r :: rs =>
    match applyPatch bundles testCase paths origData st r with
    | .ok (some st') => applyMerged bundles testCase paths file origData st' rs
    | .ok none => .ok none
    | .error _ => .error
        (.runtimeError (applyFailure r.patch (bundleAt bundles r).passName file origData.length))

/-- `_apply_hint_patches_to_file`: the new contents of the file, unless there is a conflict. -/
def applyHintPatchesToFile (bundles : List HintBundle) (testCase : TestCase)
    (paths : PathToPatches) (file : RelPath) (origData : Bytes) (stats : Dict Str Int)
    (patches : List PatchRef) : Except PyErr (Option (Bytes × Dict Str Int)) :=
  applyMerged bundles testCase paths file origData ⟨[], 0, stats⟩ (mergeOverlappingPatches patches)

/-- `HintApplicationReport`, with paths relative to the destination. -/
structure HintApplicationReport where
  statsDeltaPerPass : Dict Str Int
  writtenPaths : List RelPath
deriving DecidableEq

/-- The body of the loop over the source's files and directories. -/
def applyToEntry (bundles : List HintBundle) (testCase : TestCase) (paths : PathToPatches)
    (dest : DirTree) (report : HintApplicationReport) (path : RelPath) (entry : Entry) :
    Except PyErr (Option (DirTree × HintApplicationReport)) := do
  let patches := paths.at path
  match ← takeRmPatch bundles entry report.statsDeltaPerPass patches with
  | some stats => return some (dest, { report with statsDeltaPerPass := stats })
  | none =>
    match entry with
    | .symlink _ _ => return some (dest, report)
    | .dir =>
      let dest' ← dest.create path .dir
      return some (dest', { report with writtenPaths := report.writtenPaths ++ [path] })
    | .file data =>
      match ← applyHintPatchesToFile bundles testCase paths path data report.statsDeltaPerPass
          patches with
      | none => return none
      | some (newData, stats) =>
        let dest' ← dest.create path (.file newData)
        return some (dest', ⟨stats, report.writtenPaths ++ [path]⟩)

def applyToEntries (bundles : List HintBundle) (testCase : TestCase) (paths : PathToPatches)
    (dest : DirTree) (report : HintApplicationReport) :
    List (RelPath × Entry) → Except PyErr (Option (DirTree × HintApplicationReport))
  | [] => .ok (some (dest, report))
  | e :: es => do
    match ← applyToEntry bundles testCase paths dest report e.1 e.2 with
    | none => return none
    | some (dest', report') => applyToEntries bundles testCase paths dest' report' es

/-- `apply_hints`: the destination and the report, or nothing on an unsolvable conflict. A file
that is deleted leaves no destination, which the outer option of the contents tells. -/
def applyHints (bundles : List HintBundle) (source : TestCase) :
    Except PyErr (Option (Option TestCase × HintApplicationReport)) := do
  let paths ← collectPatches bundles
  match source with
  | .dir t =>
    match ← applyToEntries bundles source paths .empty ⟨[], []⟩ t.entries with
    | none => return none
    | some (dest, report) => return some (some (.dir dest), report)
  | .file data =>
    let patches := paths.at []
    match ← takeRmPatch bundles (.file data) [] patches with
    | some stats => return some (none, ⟨stats, []⟩)
    | none =>
      match ← applyHintPatchesToFile bundles source paths [] data [] patches with
      | none => return none
      | some (newData, stats) => return some (some (.file newData), ⟨stats, [[]]⟩)

variable {bundles : List HintBundle} {paths : PathToPatches} {r : PatchRef}

theorem mem_allRefs : r ∈ allRefs bundles ↔ ∃ b, bundles[r.bundleId]? = some b ∧
    ∃ h, b.hints[r.hintId]? = some h ∧ r.patch ∈ h.patches := by
  simp only [allRefs, hintRefs, List.mem_flatMap, Prod.exists, List.mem_zipIdx_iff_getElem?,
    List.mem_map]
  constructor
  · intro ⟨b, i, hb, h, j, hh, p, hp, he⟩
    subst he
    exact ⟨b, hb, h, hh, hp⟩
  · intro ⟨b, hb, h, hh, hp⟩
    exact ⟨b, r.bundleId, hb, h, r.hintId, hh, r.patch, hp, rfl⟩

theorem pathOf_bind_ok {x : RelPath × PatchRef} :
    (do let path ← (bundleAt bundles r).pathOf r.patch; return (path, r) :
      Except PyErr (RelPath × PatchRef)) = .ok x ↔
      x.2 = r ∧ (bundleAt bundles r).pathOf r.patch = .ok x.1 := by
  rw [except_bind_ok]
  constructor
  · intro ⟨path, hpath, he⟩
    cases he
    exact ⟨rfl, hpath⟩
  · intro ⟨hx, hpath⟩
    exact ⟨x.1, hpath, hx ▸ rfl⟩

theorem mem_at (h : collectPatches bundles = .ok paths) (file : RelPath) :
    r ∈ paths.at file ↔
      r ∈ allRefs bundles ∧ (bundleAt bundles r).pathOf r.patch = .ok file := by
  have hmem := fun x => except_mapM_mem (y := x) h
  simp only [pathOf_bind_ok] at hmem
  simp only [PathToPatches.at, List.mem_map, List.mem_filter, decide_eq_true_eq, hmem]
  constructor
  · intro ⟨x, ⟨⟨s, hs, hxs, hpath⟩, hfile⟩, hr⟩
    subst hxs hr hfile
    exact ⟨hs, hpath⟩
  · intro ⟨hr, hpath⟩
    exact ⟨(file, r), ⟨⟨r, hr, rfl, hpath⟩, rfl⟩, rfl⟩

/-- What became of one entry of the source when its turn ended without a conflict. -/
inductive EntryStep (bundles : List HintBundle) (testCase : TestCase) (paths : PathToPatches)
    (path : RelPath) (stats : Dict Str Int) (dest : DirTree) : Entry → DirTree → Prop
  | rm (h : takeRmPatch bundles entry stats (paths.at path) = .ok (some stats')) :
      EntryStep bundles testCase paths path stats dest entry dest
  | symlink (h : takeRmPatch bundles (.symlink text dest₀) stats (paths.at path) = .ok none) :
      EntryStep bundles testCase paths path stats dest (.symlink text dest₀) dest
  | dir (h : takeRmPatch bundles .dir stats (paths.at path) = .ok none)
      (hd : dest'.entries = dest.entries ++ [(path, .dir)]) :
      EntryStep bundles testCase paths path stats dest .dir dest'
  | file (h : takeRmPatch bundles (.file data) stats (paths.at path) = .ok none)
      (ha : applyHintPatchesToFile bundles testCase paths path data stats (paths.at path) =
        .ok (some (newData, stats')))
      (hd : dest'.entries = dest.entries ++ [(path, .file newData)]) :
      EntryStep bundles testCase paths path stats dest (.file data) dest'

theorem applyToEntry_step
    (h : applyToEntry bundles testCase paths dest report path entry = .ok (some (dest', report'))) :
    EntryStep bundles testCase paths path report.statsDeltaPerPass dest entry dest' := by
  simp only [applyToEntry, except_bind_ok] at h
  obtain ⟨taken, htaken, h⟩ := h
  cases taken with
  | some stats =>
    cases h
    exact .rm htaken
  | none =>
    cases entry with
    | symlink text dest₀ =>
      cases h
      exact .symlink htaken
    | dir =>
      rw [except_bind_ok] at h
      obtain ⟨dest', hcreate, h⟩ := h
      cases h
      exact .dir htaken (DirTree.create_entries hcreate)
    | file data =>
      simp only [except_bind_ok] at h
      obtain ⟨edited, hedit, h⟩ := h
      cases edited with
      | none => cases h
      | some edit =>
        rw [except_bind_ok] at h
        obtain ⟨dest', hcreate, h⟩ := h
        cases h
        exact .file htaken hedit (DirTree.create_entries hcreate)

theorem EntryStep.entries_subset
    (h : EntryStep bundles testCase paths path stats dest entry dest') :
    dest.entries ⊆ dest'.entries := by
  cases h with
  | rm _ => exact List.Subset.refl _
  | symlink _ => exact List.Subset.refl _
  | dir _ hd => exact hd ▸ List.subset_append_left _ _
  | file _ _ hd => exact hd ▸ List.subset_append_left _ _

/-- Every entry of the source has its turn, and what a turn wrote stays. -/
theorem applyToEntries_step
    (h : applyToEntries bundles testCase paths dest report es = .ok (some result)) :
    dest.entries ⊆ result.1.entries ∧ ∀ e ∈ es, ∃ stats dest₁ dest₂,
      EntryStep bundles testCase paths e.1 stats dest₁ e.2 dest₂ ∧
        dest₂.entries ⊆ result.1.entries := by
  induction es generalizing dest report with
  | nil =>
    cases h
    exact ⟨List.Subset.refl _, by simp⟩
  | cons e es ih =>
    rw [applyToEntries, except_bind_ok] at h
    obtain ⟨applied, happlied, h⟩ := h
    cases applied with
    | none => cases h
    | some next =>
      have hstep := applyToEntry_step happlied
      obtain ⟨hsub, hall⟩ := ih h
      apply And.intro
      · exact List.Subset.trans hstep.entries_subset hsub
      · exact List.forall_mem_cons.2 ⟨⟨_, _, _, hstep, hsub⟩, hall⟩

theorem EntryStep.plain (h : EntryStep bundles testCase paths path stats dest entry dest')
    (hdest : (TestCase.dir dest).Plain) : (TestCase.dir dest').Plain := by
  have happend : ∀ {x : Entry}, dest'.entries = dest.entries ++ [(path, x)] →
      x.isSymlink = false → (TestCase.dir dest').Plain := by
    intro x hd hx e he
    rw [TestCase.descendants, hd] at he
    rcases List.mem_append.1 he with he | he
    · exact hdest e he
    · rw [List.mem_singleton.1 he]
      exact hx
  cases h with
  | rm _ => exact hdest
  | symlink _ => exact hdest
  | dir _ hd => exact happend hd rfl
  | file _ _ hd => exact happend hd rfl

theorem applyToEntries_plain
    (h : applyToEntries bundles testCase paths dest report es = .ok (some (dest', report')))
    (hdest : (TestCase.dir dest).Plain) : (TestCase.dir dest').Plain := by
  induction es generalizing dest report with
  | nil =>
    cases h
    exact hdest
  | cons e es ih =>
    rw [applyToEntries, except_bind_ok] at h
    obtain ⟨applied, happlied, h⟩ := h
    cases applied with
    | none => cases h
    | some next => exact ih h ((applyToEntry_step happlied).plain hdest)

/-- Symlinks are left out. -/
theorem applyHints_plain (h : applyHints bundles source = .ok (some (some v, report))) :
    v.Plain := by
  rw [applyHints, except_bind_ok] at h
  obtain ⟨paths, _, h⟩ := h
  cases source with
  | dir t =>
    obtain ⟨applied, happlied, h⟩ := except_bind_ok.1 h
    cases applied with
    | none => cases h
    | some result =>
      cases h
      exact applyToEntries_plain happlied fun e he => absurd he List.not_mem_nil
  | file data =>
    obtain ⟨taken, _, h⟩ := except_bind_ok.1 h
    cases taken with
    | some stats => cases h
    | none =>
      obtain ⟨edited, _, h⟩ := except_bind_ok.1 h
      cases edited with
      | none => cases h
      | some edit =>
        cases h
        exact fun e he => absurd he List.not_mem_nil

theorem applyToEntry_written
    (h : applyToEntry bundles testCase paths dest report path entry = .ok (some (dest', report')))
    (hdest : report.writtenPaths = dest.entries.map Prod.fst) :
    report'.writtenPaths = dest'.entries.map Prod.fst := by
  have happend : ∀ {x : Entry}, dest'.entries = dest.entries ++ [(path, x)] →
      report'.writtenPaths = report.writtenPaths ++ [path] →
      report'.writtenPaths = dest'.entries.map Prod.fst := by
    intro x hentries hpaths
    rw [hpaths, hdest, hentries, List.map_append]
    rfl
  simp only [applyToEntry, except_bind_ok] at h
  obtain ⟨taken, _, h⟩ := h
  cases taken with
  | some stats =>
    cases h
    exact hdest
  | none =>
    cases entry with
    | symlink text dest₀ =>
      cases h
      exact hdest
    | dir =>
      obtain ⟨dest₁, hcreate, h⟩ := except_bind_ok.1 h
      cases h
      exact happend (DirTree.create_entries hcreate) rfl
    | file data =>
      obtain ⟨edited, _, h⟩ := except_bind_ok.1 h
      cases edited with
      | none => cases h
      | some edit =>
        obtain ⟨dest₁, hcreate, h⟩ := except_bind_ok.1 h
        cases h
        exact happend (DirTree.create_entries hcreate) rfl

theorem applyToEntries_written
    (h : applyToEntries bundles testCase paths dest report es = .ok (some (dest', report')))
    (hdest : report.writtenPaths = dest.entries.map Prod.fst) :
    report'.writtenPaths = dest'.entries.map Prod.fst := by
  induction es generalizing dest report with
  | nil =>
    cases h
    exact hdest
  | cons e es ih =>
    rw [applyToEntries, except_bind_ok] at h
    obtain ⟨applied, happlied, h⟩ := h
    cases applied with
    | none => cases h
    | some next => exact ih h (applyToEntry_written happlied hdest)

theorem applyHints_writtenPaths (h : applyHints bundles source = .ok (some (variant, report))) :
    (∃ tree, variant = some (.dir tree) ∧ report.writtenPaths = tree.entries.map Prod.fst) ∨
      (∃ data, variant = some (.file data) ∧ report.writtenPaths = [[]]) ∨
      variant = none ∧ report.writtenPaths = [] := by
  rw [applyHints, except_bind_ok] at h
  obtain ⟨paths, _, h⟩ := h
  cases source with
  | dir t =>
    obtain ⟨applied, happlied, h⟩ := except_bind_ok.1 h
    cases applied with
    | none => cases h
    | some result =>
      cases h
      exact .inl ⟨_, rfl, applyToEntries_written happlied rfl⟩
  | file data =>
    obtain ⟨taken, _, h⟩ := except_bind_ok.1 h
    cases taken with
    | some stats =>
      cases h
      exact .inr (.inr ⟨rfl, rfl⟩)
    | none =>
      obtain ⟨edited, _, h⟩ := except_bind_ok.1 h
      cases edited with
      | none => cases h
      | some edit =>
        cases h
        exact .inr (.inl ⟨_, rfl, rfl⟩)

/-- Everything in the destination is among the paths that the report names. -/
theorem applyHints_written (h : applyHints bundles source = .ok (some (some v, report))) :
    ∀ e ∈ v.descendants, e.1 ∈ report.writtenPaths := by
  rcases applyHints_writtenPaths h with ⟨tree, hv, hpaths⟩ | ⟨data, hv, _⟩ | ⟨hv, _⟩
  · cases hv
    intro e he
    rw [hpaths]
    exact List.mem_map_of_mem he
  · cases hv
    simp [TestCase.descendants]
  · cases hv

end Cvise
