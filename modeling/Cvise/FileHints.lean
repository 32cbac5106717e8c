import Cvise.ClaimedFiles
import Cvise.DirHash
import Cvise.SubtractDeletions

namespace Cvise
set_option autoImplicit true

/-- A range of a file that a hint deletes. -/
structure FileChunk where
  type : Option Nat := none
  left : Nat
  right : Nat
deriving DecidableEq

def FileChunk.toHint (pathId : Option Nat) (s : FileChunk) : Hint :=
  { type := s.type, patches := [{ left := some s.left, right := some s.right, path := pathId }] }

/-- The hints for one file. In a directory its path becomes the next word of the vocabulary. -/
def addFileHints (chunks : Bytes → List FileChunk) (testCase : TestCase) (b : HintBundle)
    (path : RelPath) : Except PyErr HintBundle := do
  let contents ← testCase.readBytes path
  let pathId := if testCase.isDir then some b.vocabulary.length else none
  let words := if testCase.isDir then [encode (strOfPath path)] else []
  return { b with
    hints := b.hints ++ (chunks contents).map (FileChunk.toHint pathId)
    vocabulary := b.vocabulary ++ words }

/-- `generate_hints` of a pass that goes through the files that are left to it. -/
def generateFileHints (vocab : List Bytes) (chunks : Bytes → List FileChunk) (lib : GlobLibrary)
    (testCase : TestCase) (claimFiles claimedByOthersFiles : List Str) : Except PyErr HintBundle :=
  (filterFilesByPatterns lib testCase claimFiles claimedByOthersFiles).foldlM
    (addFileHints chunks testCase) { hints := [], vocabulary := vocab }

/-- The names in the test case can be names of files. -/
def TestCase.Named : TestCase → Prop
  | .file _ => True
  | .dir t => t.Named

/-- The range of one of the hints holds the position in the file. -/
def HintBundle.Takes (b : HintBundle) (path : RelPath) (i : Nat) : Prop :=
  ∃ h ∈ b.hints, ∃ p ∈ h.patches, b.pathOf p = .ok path ∧ p.left.getD 0 ≤ i ∧ i < p.right.getD 0

instance (b : HintBundle) (path : RelPath) (i : Nat) : Decidable (b.Takes path i) :=
  inferInstanceAs (Decidable (∃ h ∈ b.hints, ∃ p ∈ h.patches, _))

variable {b : HintBundle} {source tc : TestCase} {chunks : Bytes → List FileChunk}
  {lib : GlobLibrary}

theorem stays_editsAt (b : HintBundle) (path : RelPath) :
    stays (b.editsAt path) = fun i => decide ¬ b.Takes path i := by
  funext i
  rw [stays, decide_eq_decide, not_iff_not]
  constructor
  · rintro ⟨e, he, hi⟩
    obtain ⟨p, hp, rfl⟩ := List.mem_map.1 he
    obtain ⟨hp, hpath⟩ := List.mem_filter.1 hp
    obtain ⟨h, hh, hp⟩ := List.mem_flatMap.1 hp
    exact ⟨h, hh, p, hp, of_decide_eq_true hpath, hi⟩
  · rintro ⟨h, hh, p, hp, hpath, hi⟩
    refine ⟨b.editOf p, List.mem_map_of_mem (List.mem_filter.2 ⟨?_, decide_eq_true hpath⟩), hi⟩
    exact List.mem_flatMap.2 ⟨h, hh, hp⟩

/-- Deletions that fit are applied, and each file is left with what they do not take. -/
theorem deletions_applied (hfits : b.Fits source) (hdel : b.Deletes) : ∃ dest report,
    applyHints [b] source = .ok (some (some dest, report)) ∧
      ∀ path out, dest.HasFile path out ↔ ∃ data, source.HasFile path data ∧
        out = keptAt (fun i => decide ¬ b.Takes path i) data := by
  obtain ⟨dest, report, happly, hedited⟩ := applyHints_edited (List.forall_mem_singleton.2 hfits)
  refine ⟨dest, report, happly, fun path out => ?_⟩
  rw [hedited.hasFile, List.flatMap_singleton]
  refine exists_congr fun data => and_congr_right fun _ => ?_
  rw [editedFile_deletions (editsAt_text hdel path), stays_editsAt]

theorem readBytes_hasFile (h : tc.HasFile path data) : tc.readBytes path = .ok data := by
  cases tc with
  | file d =>
    obtain ⟨rfl, rfl⟩ := h
    rfl
  | dir t =>
    have hne := (t.rooted _ h).1
    cases path with
    | nil => exact absurd rfl hne
    | cons part parts =>
      simp only [TestCase.readBytes, lookupEntry_some.2 h]
      rfl

/-- A path of the test case comes back from the vocabulary. -/
theorem pathOfBytes_word (hnamed : tc.Named) (h : tc.HasFile path data) (hdir : tc.isDir = true) :
    pathOfBytes (encode (strOfPath path)) = .ok path := by
  cases tc with
  | file d => cases hdir
  | dir t =>
    have hnormal : NormalPath path :=
      ⟨[], path, rfl, List.mem_cons_self, fun c hc => hnamed _ h c hc⟩
    rw [pathOfBytes, decode_encode]
    simp only [pathOfStr_strOfPath hnormal]

/-- The hints of a pass over files: each is for a chunk of one of the files, and names its path. -/
structure HintsOf (chunks : Bytes → List FileChunk) (tc : TestCase) (paths : List RelPath)
    (b : HintBundle) : Prop where
  sound : ∀ h ∈ b.hints, ∃ path ∈ paths, ∃ data, tc.HasFile path data ∧ ∃ c ∈ chunks data,
    ∃ pathId, b.pathOf { path := pathId } = .ok path ∧ h = c.toHint pathId
  complete : ∀ path ∈ paths, ∃ data, tc.HasFile path data ∧
    ∃ pathId, b.pathOf { path := pathId } = .ok path ∧ ∀ c ∈ chunks data, c.toHint pathId ∈ b.hints

theorem pathOf_prefix {b' : HintBundle} (hpre : b.vocabulary <+: b'.vocabulary)
    (h : b.pathOf p = .ok path) : b'.pathOf p = .ok path := by
  rw [HintBundle.pathOf] at h ⊢
  cases hp : p.path with
  | none =>
    rw [hp] at h
    exact h
  | some i =>
    rw [hp] at h
    obtain ⟨word, hword, hpath⟩ := except_bind_ok.1 h
    refine except_bind_ok.2 ⟨word, ?_, hpath⟩
    rw [HintBundle.word] at hword ⊢
    cases hi : b.vocabulary[i]? with
    | none =>
      rw [hi] at hword
      cases hword
    | some w =>
      rw [hi] at hword
      obtain ⟨ws, hws⟩ := hpre
      rw [← hws, List.getElem?_append_left (List.getElem?_eq_some_iff.1 hi).1, hi]
      exact hword

theorem hasFile_of_mem_findFilesMatching {globs : List Str}
    (h : path ∈ findFilesMatching lib tc globs) : ∃ data, tc.HasFile path data := by
  rw [findFilesMatching.eq_def] at h
  split at h
  · cases h
  · cases tc with
    | file data =>
      simp only at h
      split at h
      · exact ⟨data, List.mem_singleton.1 h, rfl⟩
      · cases h
    | dir t =>
      have hall : ∀ e ∈ (globs.flatMap lib.glob).foldl (addInode lib t) [],
          ∃ data, (e.2, Entry.file data) ∈ t.entries := by
        generalize globs.flatMap lib.glob = os
        have hnone : ∀ e ∈ ([] : Dict (Nat × Nat) RelPath), ∃ data,
            (e.2, Entry.file data) ∈ t.entries := List.forall_mem_nil _
        revert hnone
        generalize ([] : Dict (Nat × Nat) RelPath) = found
        intro hfound
        induction os generalizing found with
        | nil => exact hfound
        | cons o os ih =>
          refine ih _ ?_
          rcases addInode_cases lib t found o with
            ⟨hsame, -⟩ | ⟨p, data, -, hp, -, hnew⟩
          · rw [hsame]
            exact hfound
          · rw [hnew]
            exact List.forall_mem_append.2 ⟨hfound, List.forall_mem_singleton.2 ⟨data, hp⟩⟩
      obtain ⟨e, he, rfl⟩ := List.mem_map.1 h
      exact hall e he

theorem hasFile_of_mem {globs excludes : List Str}
    (h : path ∈ filterFilesByPatterns lib tc globs excludes) : ∃ data, tc.HasFile path data := by
  rw [filterFilesByPatterns, List.mem_insertionSort] at h
  split at h
  · exact hasFile_of_mem_findFilesMatching h
  · exact hasFile_of_mem_findFilesMatching (List.mem_filter.1 h).1

theorem addFileHints_ok (chunks : Bytes → List FileChunk) (hnamed : tc.Named)
    (h : tc.HasFile path data) (b : HintBundle) :
    ∃ b' pathId, addFileHints chunks tc b path = .ok b' ∧
      b'.hints = b.hints ++ (chunks data).map (FileChunk.toHint pathId) ∧
      b.vocabulary <+: b'.vocabulary ∧ b'.pathOf { path := pathId } = .ok path := by
  refine ⟨_, _, by rw [addFileHints, readBytes_hasFile h]; rfl, rfl, List.prefix_append _ _, ?_⟩
  cases hdir : tc.isDir with
  | false =>
    cases tc with
    | file d => exact congrArg Except.ok h.1.symm
    | dir t => cases hdir
  | true =>
    simp only [if_true]
    refine except_bind_ok.2 ⟨encode (strOfPath path), ?_, pathOfBytes_word hnamed h hdir⟩
    rw [HintBundle.word, List.getElem?_concat_length]

theorem foldlM_addFileHints (hnamed : tc.Named) {paths done : List RelPath}
    (hpaths : ∀ path ∈ paths, ∃ data, tc.HasFile path data) (hb : HintsOf chunks tc done b) :
    ∃ b', paths.foldlM (addFileHints chunks tc) b = .ok b' ∧ b.vocabulary <+: b'.vocabulary ∧
      HintsOf chunks tc (done ++ paths) b' := by
  induction paths generalizing b done with
  | nil =>
    refine ⟨b, rfl, List.prefix_rfl, ?_⟩
    rwa [List.append_nil]
  | cons path paths ih =>
    obtain ⟨⟨data, hdata⟩, hpaths⟩ := List.forall_mem_cons.1 hpaths
    obtain ⟨b₁, pathId, hadd, hhints, hpre, hpath⟩ := addFileHints_ok chunks hnamed hdata b
    have hb₁ : HintsOf chunks tc (done ++ [path]) b₁ := by
      constructor
      · intro h hh
        rw [hhints] at hh
        rcases List.mem_append.1 hh with hh | hh
        · obtain ⟨p, hp, d, hd, c, hc, i, hi, rfl⟩ := hb.sound h hh
          exact ⟨p, List.mem_append_left _ hp, d, hd, c, hc, i, pathOf_prefix hpre hi, rfl⟩
        · obtain ⟨c, hc, rfl⟩ := List.mem_map.1 hh
          exact ⟨path, List.mem_append_right _ (List.mem_singleton_self _), data, hdata, c, hc,
            pathId, hpath, rfl⟩
      · intro p hp
        rw [hhints]
        rcases List.mem_append.1 hp with hp | hp
        · obtain ⟨d, hd, i, hi, hall⟩ := hb.complete p hp
          exact ⟨d, hd, i, pathOf_prefix hpre hi, fun c hc => List.mem_append_left _ (hall c hc)⟩
        · rw [List.mem_singleton.1 hp]
          exact ⟨data, hdata, pathId, hpath,
            fun c hc => List.mem_append_right _ (List.mem_map_of_mem hc)⟩
    obtain ⟨b', hfold, hpre', hb'⟩ := ih hpaths hb₁
    refine ⟨b', ?_, hpre.trans hpre', ?_⟩
    · rw [List.foldlM_cons, hadd]
      exact hfold
    · rwa [List.append_assoc, List.singleton_append] at hb'

theorem hintsOf_nil (chunks : Bytes → List FileChunk) (tc : TestCase) (vocab : List Bytes) :
    HintsOf chunks tc [] { hints := [], vocabulary := vocab } where
  sound := List.forall_mem_nil _
  complete := List.forall_mem_nil _

theorem generateFileHints_ok (hnamed : tc.Named) (vocab : List Bytes)
    (chunks : Bytes → List FileChunk) (lib : GlobLibrary) (globs excludes : List Str) :
    ∃ b, generateFileHints vocab chunks lib tc globs excludes = .ok b ∧ vocab <+: b.vocabulary ∧
      HintsOf chunks tc (filterFilesByPatterns lib tc globs excludes) b :=
  foldlM_addFileHints hnamed (fun _ => hasFile_of_mem) (hintsOf_nil chunks tc vocab)

/-- Whichever of the hints are applied, each file loses what they take of it, and only the files
that are left to the pass lose anything. -/
def SubsetsDelete (tc : TestCase) (paths : List RelPath) (b : HintBundle) : Prop :=
  ∀ hs, (∀ h ∈ hs, h ∈ b.hints) → ∃ dest report,
    applyHints [{ b with hints := hs }] tc = .ok (some (some dest, report)) ∧
      ∀ path data, tc.HasFile path data →
        dest.HasFile path (keptAt (fun i => decide ¬ { b with hints := hs }.Takes path i) data) ∧
          (path ∉ paths → dest.HasFile path data)

theorem keptAt_all (data : List β) : keptAt (fun _ => true) data = data := by
  rw [keptAt, List.filter_true, List.zipIdx_map_fst]

theorem HintsOf.subsetsDelete (hb : HintsOf chunks tc paths b)
    (hwithin : ∀ data, ∀ c ∈ chunks data, c.left ≤ c.right ∧ c.right ≤ data.length) :
    SubsetsDelete tc paths b := by
  intro hs hsub
  have hfits : HintBundle.Fits { b with hints := hs } tc := by
    intro h hh p hp
    obtain ⟨path, -, data, hdata, c, hc, pathId, hpath, rfl⟩ := hb.sound h (hsub h hh)
    obtain rfl := List.mem_singleton.1 hp
    obtain ⟨hle, hlen⟩ := hwithin data c hc
    refine ⟨path, data, hpath, hdata, rfl, rfl, hle, hlen, rfl, ?_⟩
    intro v hv
    cases hv
  have hdel : HintBundle.Deletes { b with hints := hs } := by
    intro h hh p hp
    obtain ⟨_, _, _, _, c, _, pathId, _, rfl⟩ := hb.sound h (hsub h hh)
    obtain rfl := List.mem_singleton.1 hp
    rfl
  obtain ⟨dest, report, happly, hfiles⟩ := deletions_applied hfits hdel
  refine ⟨dest, report, happly, fun path data hdata => ⟨?_, fun hpath => ?_⟩⟩
  · exact (hfiles path _).2 ⟨data, hdata, rfl⟩
  · refine (hfiles path _).2 ⟨data, hdata, ?_⟩
    have hnone : (fun i => decide ¬ HintBundle.Takes { b with hints := hs } path i) =
        fun _ => true := by
      funext i
      refine decide_eq_true ?_
      rintro ⟨h, hh, p, hp, hpath', -⟩
      obtain ⟨path', hmem, _, _, c, _, pathId, hid, rfl⟩ := hb.sound h (hsub h hh)
      obtain rfl := List.mem_singleton.1 hp
      cases hid.symm.trans hpath'
      exact hpath hmem
    rw [hnone, keptAt_all]

theorem HintsOf.takes_iff (hb : HintsOf chunks tc paths b) (hpath : path ∈ paths)
    (hdata : tc.HasFile path data) (types : Option Nat → Bool) (i : Nat) :
    HintBundle.Takes { b with hints := b.hints.filter fun h => types h.type } path i ↔
      ∃ c ∈ chunks data, types c.type = true ∧ c.left ≤ i ∧ i < c.right := by
  constructor
  · rintro ⟨h, hh, p, hp, hpath', hi⟩
    obtain ⟨hh, htype⟩ := List.mem_filter.1 hh
    obtain ⟨path', -, data', hdata', c, hc, pathId, hid, rfl⟩ := hb.sound h hh
    obtain rfl := List.mem_singleton.1 hp
    cases hid.symm.trans hpath'
    cases hasFile_unique hdata hdata'
    exact ⟨c, hc, htype, hi⟩
  · rintro ⟨c, hc, htype, hi⟩
    obtain ⟨data', hdata', pathId, hid, hall⟩ := hb.complete path hpath
    cases hasFile_unique hdata hdata'
    exact ⟨c.toHint pathId, List.mem_filter.2 ⟨hall c hc, htype⟩, _, List.mem_singleton_self _, hid,
      hi⟩

/-- Two elements that come next to each other had only unselected ones between them. -/
theorem pair_infix_keptAt {keep : Nat → Bool} {data : List β} (h : [x, y] <:+: keptAt keep data) :
    ∃ q q', q < q' ∧ data[q]? = some x ∧ data[q']? = some y ∧ keep q = true ∧ keep q' = true ∧
      ∀ k, q < k → k < q' → keep k = false := by
  obtain ⟨s, t, hst⟩ := h
  rw [List.append_assoc] at hst
  obtain ⟨l₁, r₁, hfilter, -, hr₁⟩ := List.map_eq_append_iff.1 hst.symm
  obtain ⟨⟨x', q⟩, r₂, rfl, rfl, hr₂⟩ := List.map_eq_cons_iff.1 hr₁
  obtain ⟨⟨y', q'⟩, r₃, rfl, rfl, -⟩ := List.map_eq_cons_iff.1 hr₂
  obtain ⟨before, rest, hzip, -, hrest⟩ := List.filter_eq_append_iff.1 hfilter
  obtain ⟨skipped, rest', rfl, -, hq, hrest'⟩ := List.filter_eq_cons_iff.1 hrest
  obtain ⟨mid, after, rfl, hmid, hq', -⟩ := List.filter_eq_cons_iff.1 hrest'
  have horder : data.zipIdx.Pairwise fun a b => a.2 < b.2 := by
    have hrange := List.pairwise_lt_range' (s := 0) (n := data.length)
    rw [← List.zipIdx_map_snd, List.pairwise_map] at hrange
    exact hrange
  have hmem (z : β × Nat) : z ∈ data.zipIdx ↔ data[z.2]? = some z.1 := List.mem_zipIdx_iff_getElem?
  rw [hzip] at horder hmem
  obtain ⟨-, hright, hbefore⟩ := List.pairwise_append.1 horder
  obtain ⟨-, hright, hskipped⟩ := List.pairwise_append.1 hright
  obtain ⟨hafter, hright⟩ := List.pairwise_cons.1 hright
  obtain ⟨-, hright, -⟩ := List.pairwise_append.1 hright
  have hlater := (List.pairwise_cons.1 hright).1
  have hx := (hmem (x', q)).1 (by simp)
  have hy := (hmem (y', q')).1 (by simp)
  refine ⟨q, q', hafter (y', q') (by simp), hx, hy, hq, hq', fun k hk hk' => ?_⟩
  have hlt : k < data.length := hk'.trans (List.getElem?_eq_some_iff.1 hy).1
  have hkin := (hmem (data[k], k)).2 (List.getElem?_eq_getElem hlt)
  simp only [List.mem_append, List.mem_cons] at hkin
  rcases hkin with hin | hin | hin | hin | hin | hin
  · exact absurd (hbefore _ hin (x', q) (by simp)) hk.not_gt
  · exact absurd (hskipped _ hin (x', q) (by simp)) hk.not_gt
  · exact absurd (congrArg Prod.snd hin) hk.ne'
  · exact Bool.eq_false_iff.2 (hmid _ hin)
  · exact absurd (congrArg Prod.snd hin) hk'.ne
  · exact absurd (hlater _ hin) hk'.not_gt

/-- What is selected wherever it occurs occurs as often as before. -/
theorem count_keptAt [DecidableEq β] {keep : Nat → Bool} {data : List β}
    (h : ∀ i, data[i]? = some x → keep i = true) : (keptAt keep data).count x = data.count x := by
  have hdata : data.count x = ((data.zipIdx).map Prod.fst).count x := by
    rw [List.zipIdx_map_fst]
  rw [hdata, keptAt, List.count_eq_countP, List.count_eq_countP, List.countP_map, List.countP_map,
    List.countP_filter]
  refine List.countP_congr fun z hz => ?_
  rw [List.mem_zipIdx_iff_getElem?] at hz
  constructor
  · intro hand
    exact (Bool.and_eq_true_iff.1 hand).1
  · intro hx
    refine Bool.and_eq_true_iff.2 ⟨hx, h _ ?_⟩
    rw [hz, beq_iff_eq.1 hx]

end Cvise
