import Cvise.PassGroups
import Cvise.TestCase
import Mathlib.Data.List.Sort

namespace Cvise
set_option autoImplicit true

/-- What the library finds out about a test case. -/
structure GlobLibrary where
  /-- `test_case.is_symlink()`. -/
  isSymlink : Bool
  /-- `fnmatch(str(test_case), pattern)`. -/
  fnmatch : Str → Bool
  /-- `test_case.glob(pattern)`, relative to the test case; `none` is a path outside of it. -/
  glob : Str → List (Option RelPath)
  /-- Device and inode. -/
  inode : RelPath → Nat × Nat

/-- `pattern.removeprefix('**/')`. -/
def removeStars : Str → Str
  | '*' :: '*' :: '/' :: pattern => pattern
  | pattern => pattern

section

variable (lib : GlobLibrary) (t : DirTree)

/-- `inode_to_path.setdefault`, for a path that is a regular file. -/
def addInode (found : Dict (Nat × Nat) RelPath) : Option RelPath → Dict (Nat × Nat) RelPath
  | none => found
  | some path =>
    match lookupEntry t.entries path with
    | some (.file _) =>
      if found.any (·.1 = lib.inode path) then found else found ++ [(lib.inode path, path)]
    | _ => found

/-- `_find_files_matching`; the path of a test case that is a file is `Path()`. -/
def findFilesMatching (tc : TestCase) (globs : List Str) : List RelPath :=
  if lib.isSymlink then []
  else
    match tc with
    | .file _ => if globs.any fun pattern => lib.fnmatch (removeStars pattern) then [[]] else []
    | .dir t => ((globs.flatMap lib.glob).foldl (addInode lib t) []).map (·.2)

def filterFilesByPatterns (tc : TestCase) (includeGlobs defaultExcludeGlobs : List Str) :
    List RelPath :=
  let paths := if includeGlobs ≠ [] then findFilesMatching lib tc includeGlobs
    else (findFilesMatching lib tc ["**/*".toList]).filter
      (· ∉ findFilesMatching lib tc defaultExcludeGlobs)
  paths.insertionSort (· ≤ ·)

/-- A regular file of the test case that one of the patterns finds. -/
def Finds (tc : TestCase) (globs : List Str) (path : RelPath) : Prop :=
  match tc with
  | .file _ => path = [] ∧ ∃ pattern ∈ globs, lib.fnmatch (removeStars pattern) = true
  | .dir t => (∃ data, (path, Entry.file data) ∈ t.entries) ∧
      ∃ pattern ∈ globs, some path ∈ lib.glob pattern

/-- No two regular files are hard links to the same data. -/
def NoHardLinks (tc : TestCase) : Prop :=
  ∀ path path' data data', tc.HasFile path data → tc.HasFile path' data' →
    lib.inode path = lib.inode path' → path = path'

end

section

variable {lib : GlobLibrary} {t : DirTree} {tc : TestCase}

theorem Finds.mono {globs globs' : List Str} (h : Finds lib tc globs path) (hsub : globs ⊆ globs') :
    Finds lib tc globs' path := by
  cases tc with
  | file data =>
    obtain ⟨hpath, pattern, hpattern, hmatch⟩ := h
    exact ⟨hpath, pattern, hsub hpattern, hmatch⟩
  | dir t =>
    obtain ⟨hfile, pattern, hpattern, hmatch⟩ := h
    exact ⟨hfile, pattern, hsub hpattern, hmatch⟩

theorem Finds.of_mem {globs : List Str} (h : Finds lib tc globs path) :
    ∃ pattern ∈ globs, Finds lib tc [pattern] path := by
  cases tc with
  | file data =>
    obtain ⟨hpath, pattern, hpattern, hmatch⟩ := h
    exact ⟨pattern, hpattern, hpath, pattern, List.mem_singleton_self _, hmatch⟩
  | dir t =>
    obtain ⟨hfile, pattern, hpattern, hmatch⟩ := h
    exact ⟨pattern, hpattern, hfile, pattern, List.mem_singleton_self _, hmatch⟩


/-- A regular file comes in with the first path of its inode. -/
theorem addInode_cases (lib : GlobLibrary) (t : DirTree) (found : Dict (Nat × Nat) RelPath)
    (o : Option RelPath) :
    addInode lib t found o = found ∧
        (∀ path data, o = some path → (path, Entry.file data) ∈ t.entries →
          ∃ e ∈ found, e.1 = lib.inode path) ∨
      ∃ path data, o = some path ∧ (path, Entry.file data) ∈ t.entries ∧
        (∀ e ∈ found, e.1 ≠ lib.inode path) ∧
          addInode lib t found o = found ++ [(lib.inode path, path)] := by
  cases o with
  | none => exact .inl ⟨rfl, fun _ _ h => by cases h⟩
  | some path =>
    rw [addInode]
    split
    · rename_i data hlookup
      by_cases hany : found.any fun e => e.1 = lib.inode path
      · rw [if_pos hany]
        refine .inl ⟨rfl, fun path' data' hpath _ => ?_⟩
        cases hpath
        obtain ⟨e, he, hkey⟩ := List.any_eq_true.1 hany
        exact ⟨e, he, of_decide_eq_true hkey⟩
      · rw [if_neg hany]
        refine .inr ⟨path, data, rfl, lookupEntry_some.1 hlookup, fun e he hkey => hany ?_, rfl⟩
        exact List.any_eq_true.2 ⟨e, he, decide_eq_true hkey⟩
    · rename_i hlookup
      refine .inl ⟨rfl, fun path' data' hpath hmem => ?_⟩
      cases hpath
      exact absurd (lookupEntry_some.2 hmem) (hlookup data')

/-- What a search has found so far. -/
structure FoundFiles (lib : GlobLibrary) (t : DirTree) (found : Dict (Nat × Nat) RelPath) :
    Prop where
  keys : ∀ e ∈ found, e.1 = lib.inode e.2
  files : ∀ e ∈ found, ∃ data, (e.2, Entry.file data) ∈ t.entries
  nodup : (found.map Prod.snd).Nodup

theorem foldl_addInode (hlinks : NoHardLinks lib (.dir t)) (os : List (Option RelPath))
    {found : Dict (Nat × Nat) RelPath} (h : FoundFiles lib t found) :
    FoundFiles lib t (os.foldl (addInode lib t) found) ∧
      ∀ path, path ∈ (os.foldl (addInode lib t) found).map Prod.snd ↔
        path ∈ found.map Prod.snd ∨
          (∃ data, (path, Entry.file data) ∈ t.entries) ∧ some path ∈ os := by
  induction os generalizing found with
  | nil => exact ⟨h, fun path => by simp⟩
  | cons o os ih =>
    rw [List.foldl_cons]
    rcases addInode_cases lib t found o with
      ⟨hsame, hold⟩ | ⟨p, data, rfl, hp, hfresh, hnew⟩
    · rw [hsame]
      obtain ⟨hfound, hmem⟩ := ih h
      refine ⟨hfound, fun path => ?_⟩
      rw [hmem path, List.mem_cons]
      constructor
      · rintro (hin | ⟨hfile, hos⟩)
        · exact .inl hin
        · exact .inr ⟨hfile, .inr hos⟩
      · rintro (hin | ⟨⟨data, hfile⟩, rfl | hos⟩)
        · exact .inl hin
        · -- The inode is known, and without hard links so is the path.
          obtain ⟨e, he, hkey⟩ := hold path data rfl hfile
          obtain ⟨data', hfile'⟩ := h.files e he
          rw [h.keys e he] at hkey
          exact .inl (List.mem_map.2 ⟨e, he, hlinks _ _ _ _ hfile' hfile hkey⟩)
        · exact .inr ⟨⟨data, hfile⟩, hos⟩
    · rw [hnew]
      have hnew' : p ∉ found.map Prod.snd := by
        intro hin
        obtain ⟨e, he, rfl⟩ := List.mem_map.1 hin
        exact hfresh e he (h.keys e he)
      have hnext : FoundFiles lib t (found ++ [(lib.inode p, p)]) :=
        { keys := List.forall_mem_append.2 ⟨h.keys, List.forall_mem_singleton.2 rfl⟩
          files := List.forall_mem_append.2 ⟨h.files, List.forall_mem_singleton.2 ⟨data, hp⟩⟩
          nodup := by
            rw [List.map_append, List.map_singleton]
            refine List.nodup_append.2 ⟨h.nodup, List.nodup_singleton _, ?_⟩
            rintro a ha b hb rfl
            rw [List.mem_singleton.1 hb] at ha
            exact hnew' ha }
      obtain ⟨hfound, hmem⟩ := ih hnext
      refine ⟨hfound, fun path => ?_⟩
      rw [hmem path, List.map_append, List.map_singleton, List.mem_append, List.mem_singleton,
        List.mem_cons, Option.some.injEq]
      constructor
      · rintro ((hin | rfl) | ⟨hfile, hos⟩)
        · exact .inl hin
        · exact .inr ⟨⟨data, hp⟩, .inl rfl⟩
        · exact .inr ⟨hfile, .inr hos⟩
      · rintro (hin | ⟨hfile, rfl | hos⟩)
        · exact .inl (.inl hin)
        · exact .inl (.inr rfl)
        · exact .inr ⟨hfile, hos⟩

theorem foundFiles_nil : FoundFiles lib t [] where
  keys := List.forall_mem_nil _
  files := List.forall_mem_nil _
  nodup := List.nodup_nil

theorem mem_findFilesMatching (hlinks : NoHardLinks lib tc) {globs : List Str} :
    path ∈ findFilesMatching lib tc globs ↔ lib.isSymlink = false ∧ Finds lib tc globs path := by
  rw [findFilesMatching.eq_def]
  cases lib.isSymlink with
  | true => simp
  | false =>
    cases tc with
    | file data =>
      simp only [Bool.false_eq_true, if_false, Finds, true_and]
      split
      · rename_i hany
        rw [List.mem_singleton]
        exact (and_iff_left (List.any_eq_true.1 hany)).symm
      · rename_i hany
        rw [List.any_eq_true] at hany
        exact iff_of_false List.not_mem_nil fun h => hany h.2
    | dir t =>
      have hmem := (foldl_addInode hlinks (globs.flatMap lib.glob) foundFiles_nil).2 path
      simp only [Bool.false_eq_true, if_false, Finds, true_and]
      rw [hmem, List.mem_flatMap]
      simp only [List.map_nil, List.not_mem_nil, false_or]

theorem mem_filterFilesByPatterns (hlinks : NoHardLinks lib tc) {globs excludes : List Str} :
    path ∈ filterFilesByPatterns lib tc globs excludes ↔ lib.isSymlink = false ∧
      if globs = [] then Finds lib tc ["**/*".toList] path ∧ ¬ Finds lib tc excludes path
      else Finds lib tc globs path := by
  rw [filterFilesByPatterns, List.mem_insertionSort]
  by_cases hglobs : globs = []
  · simp only [hglobs, ne_eq, not_true_eq_false, if_false, if_true, List.mem_filter,
      mem_findFilesMatching hlinks, decide_eq_true_eq]
    cases lib.isSymlink <;> simp
  · simp only [ne_eq, hglobs, not_false_eq_true, if_true, if_false, mem_findFilesMatching hlinks]

/-- A pass that claims files gets those, and a pass that claims none gets all files that no entry
of the configuration claims, whether or not the options let that entry's pass be used. -/
theorem passFiles_iff {result : Dict Str (List PassInstance)}
    (h : parsePassGroupDict group opts = .ok result) (hmem : (name, passes) ∈ result)
    (hp : p ∈ passes) (hlinks : NoHardLinks lib tc) :
    ∃ category ∈ passCategories, name = category.name ∧
      ∃ (passId : Nat) (d : PassDict), (group.entries category)[passId]? = some d ∧
        p.claimFiles = d.claimFiles ∧
        ∀ path, path ∈ filterFilesByPatterns lib tc p.claimFiles p.claimedByOthersFiles ↔
          lib.isSymlink = false ∧
            if d.claimFiles = [] then
              Finds lib tc ["**/*".toList] path ∧
                ∀ cat ∈ passCategories, ∀ d' ∈ group.entries cat, ¬ Finds lib tc d'.claimFiles path
            else Finds lib tc d.claimFiles path := by
  obtain ⟨category, hcategory, hname, passId, d, className, hd, rfl⟩ :=
    parsePassGroupDict_mem h hmem hp
  refine ⟨category, hcategory, hname, passId, d, hd, rfl, fun path => ?_⟩
  show path ∈ filterFilesByPatterns lib tc d.claimFiles
    (claimedByOthersFiles group category passId) ↔ _
  rw [mem_filterFilesByPatterns hlinks]
  by_cases hclaims : d.claimFiles = []
  · rw [if_pos hclaims, if_pos hclaims]
    refine and_congr_right fun _ => and_congr_right fun _ => ?_
    constructor
    · intro hnone cat hcat d' hd' hfinds
      obtain ⟨i, hi⟩ := List.mem_iff_getElem?.1 hd'
      refine hnone (hfinds.mono fun pattern hpattern => ?_)
      refine mem_claimedByOthersFiles.2 ⟨cat, hcat, i, d', hi, ?_, hpattern⟩
      -- The entry itself has no patterns.
      by_contra hself
      obtain ⟨hsame, hid⟩ := not_or.1 hself
      obtain rfl : i = passId := not_not.1 hid
      rw [PassGroupDict.entries, not_not.1 hsame] at hi
      rw [← Option.some.inj (hd.symm.trans hi), hclaims] at hpattern
      cases hpattern
    · intro hall hfinds
      obtain ⟨pattern, hpattern, hfinds⟩ := hfinds.of_mem
      obtain ⟨cat, hcat, i, d', hd', -, hclaim⟩ := mem_claimedByOthersFiles.1 hpattern
      refine hall cat hcat d' (List.mem_of_getElem? hd') (hfinds.mono fun q hq => ?_)
      rw [List.mem_singleton.1 hq]
      exact hclaim
  · rw [if_neg hclaims, if_neg hclaims]

end

/-- A configuration that leaves the makefile to a pass of its own. -/
def makefileGroup : PassGroupDict :=
  [("main".toList, [{ pass := some "makefile".toList, claimFiles := ["**/Makefile".toList] },
    { pass := some "blank".toList }])]

def makefileTree : DirTree where
  entries := [(["Makefile".toList], .file []), (["a.c".toList], .file [])]
  sorted := by decide
  rooted := by decide

def makefileLibrary : GlobLibrary where
  isSymlink := false
  fnmatch _ := false
  glob pattern :=
    if pattern = "**/Makefile".toList then [some ["Makefile".toList]]
    else [some ["Makefile".toList], some ["a.c".toList]]
  inode path := if path = ["Makefile".toList] then (0, 1) else (0, 2)

def makefilePasses : List PassInstance :=
  [⟨"MakefilePass".toList, none, none, none, none, ["**/Makefile".toList], []⟩,
    ⟨"BlankPass".toList, none, none, none, none, [], ["**/Makefile".toList]⟩]

theorem makefileGroup_parsed :
    parsePassGroupDict makefileGroup {} = .ok [("main".toList, makefilePasses)] := by rfl

theorem makefile_noHardLinks : NoHardLinks makefileLibrary (.dir makefileTree) := by
  intro path path' data data' h h' hinode
  simp only [TestCase.HasFile, makefileTree, List.mem_cons, Prod.mk.injEq, List.not_mem_nil,
    or_false] at h h'
  rcases h with ⟨rfl, -⟩ | ⟨rfl, -⟩ <;> rcases h' with ⟨rfl, -⟩ | ⟨rfl, -⟩
  · rfl
  · cases hinode
  · cases hinode
  · rfl

/-- The pass without patterns gets the other file only. -/
theorem passFiles_iff_makefile :
    filterFilesByPatterns makefileLibrary (.dir makefileTree) [] ["**/Makefile".toList] =
        [["a.c".toList]] ∧
      ∃ category ∈ passCategories, "main".toList = category.name ∧
        ∃ (passId : Nat) (d : PassDict), (makefileGroup.entries category)[passId]? = some d ∧
          [] = d.claimFiles ∧
          ∀ path, path ∈ filterFilesByPatterns makefileLibrary (.dir makefileTree) []
              ["**/Makefile".toList] ↔ makefileLibrary.isSymlink = false ∧
            if d.claimFiles = [] then
              Finds makefileLibrary (.dir makefileTree) ["**/*".toList] path ∧
                ∀ cat ∈ passCategories, ∀ d' ∈ makefileGroup.entries cat,
                  ¬ Finds makefileLibrary (.dir makefileTree) d'.claimFiles path
            else Finds makefileLibrary (.dir makefileTree) d.claimFiles path :=
  ⟨by decide, passFiles_iff makefileGroup_parsed (List.mem_singleton_self _)
    (p := ⟨"BlankPass".toList, none, none, none, none, [], ["**/Makefile".toList]⟩)
    (List.mem_cons_of_mem _ (List.mem_singleton_self _)) makefile_noHardLinks⟩

end Cvise
