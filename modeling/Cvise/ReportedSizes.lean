import Cvise.CommitSafety
import Cvise.RemoveExtraneous
import Cvise.RestartQueue
import Mathlib.Data.List.Perm.Basic

namespace Cvise
set_option autoImplicit true

variable {T L : Type}

/-- What `get_file_size` counts. -/
def Entry.isRegular (e : Entry) : Bool := e.isFile && !e.isSymlink

theorem Entry.isRegular_without (gone : List RelPath) (e : Entry) :
    (e.without gone).isRegular = e.isRegular := by
  cases e with
  | symlink text dest => simp [isRegular, without, isSymlink]
  | _ => rfl

theorem Entry.lstatSize_without (gone : List RelPath) (e : Entry) :
    (e.without gone).lstatSize = e.lstatSize := by
  cases e with
  | _ => rfl

/-- The clean-up removes no regular file that has contents: each such file is expected, or the
clean-up stops before it, at a symlink that still leads to a directory. -/
def NoBytesRemoved (expected : List RelPath) (left : TestCase) : Prop :=
  ∀ e ∈ left.descendants, e.1 ∉ expected → e.2.isRegular → e.2.lstatSize ≠ 0 →
    ∃ s ∈ left.descendants, ExtraneousLink expected left.descendants s ∧ e.1 < s.1

instance (expected : List RelPath) (left : TestCase) : Decidable (NoBytesRemoved expected left) :=
  inferInstanceAs (Decidable (∀ e ∈ left.descendants, _))

theorem getFileSize_filter {t t' : DirTree} (keep : RelPath × Entry → Bool) (gone : List RelPath)
    (h : t'.entries = withoutPaths gone (t.entries.filter keep)) : (TestCase.dir t).getFileSize =
      (TestCase.dir t').getFileSize +
        (((t.entries.filter fun e => e.2.isRegular).filter fun e => !keep e).map
          (·.2.lstatSize)).sum := by
  have hperm := List.filter_append_perm keep (t.entries.filter fun e => e.2.isRegular)
  have hsum := (hperm.map (·.2.lstatSize)).sum_nat
  rw [List.map_append, List.sum_append_nat] at hsum
  have hkept : (t'.entries.filter fun e => e.2.isRegular).map (·.2.lstatSize) =
      ((t.entries.filter fun e => e.2.isRegular).filter keep).map (·.2.lstatSize) := by
    rw [h, withoutPaths, List.filter_map, List.map_map, List.filter_comm]
    simp only [Function.comp_def, Entry.isRegular_without, Entry.lstatSize_without]
  rw [← hkept] at hsum
  exact hsum.symm

/-- The clean-up keeps the size exactly if it removes no file with contents. -/
theorem getFileSize_removeExtraneousFiles (hclosed : ClosedUnderParents expected) (left : TestCase) :
    (left.removeExtraneousFiles expected).1.getFileSize = left.getFileSize ↔
      NoBytesRemoved expected left := by
  cases left with
  | file data => simp [TestCase.removeExtraneousFiles, NoBytesRemoved, TestCase.descendants]
  | dir t =>
    obtain ⟨t', ht', hentries⟩ := removeExtraneousFiles_entries hclosed t
    rw [ht', getFileSize_filter _ _ hentries, left_eq_add, List.sum_eq_zero_iff_forall_eq_nat]
    simp only [List.mem_map, List.mem_filter, Bool.not_eq_true', decide_eq_false_iff_not,
      forall_exists_index, and_imp]
    constructor
    · intro hzero e he hnew hregular hne
      by_contra hlinks
      refine hne (hzero _ e he hregular ?_ rfl)
      rintro (hmem | ⟨s, hs, hlink, rfl | hlt⟩)
      · exact hnew hmem
      · rw [Entry.isRegular, hlink.2.1, Bool.not_true, Bool.and_false] at hregular
        cases hregular
      · exact hlinks ⟨s, hs, hlink, hlt⟩
    · rintro hnone _ e he hregular hgone rfl
      by_contra hsize
      obtain ⟨s, hs, hlink, hlt⟩ := hnone e he (fun hmem => hgone (.inl hmem)) hregular hsize
      exact hgone (.inr ⟨s, hs, hlink, .inr hlt⟩)

theorem applyHints_closed (h : applyHints bundles source = .ok (some (variant, report))) :
    ClosedUnderParents report.writtenPaths := by
  intro p hp
  rcases applyHints_writtenPaths h with ⟨tree, _, hpaths⟩ | ⟨data, _, hpaths⟩ | ⟨_, hpaths⟩
  · rw [hpaths] at hp ⊢
    obtain ⟨e, he, rfl⟩ := List.mem_map.1 hp
    exact (tree.rooted e he).2.imp_right List.mem_map_of_mem
  · rw [hpaths] at hp
    rw [List.mem_singleton.1 hp]
    exact .inl rfl
  · rw [hpaths] at hp
    cases hp

theorem Pass.transform_closed {p : Pass L} {x : Transformed L}
    (h : p.transform r seed original copied state = .ok x) : ClosedUnderParents x.writtenPaths := by
  have hnil : ClosedUnderParents [] := fun p hp => absurd hp List.not_mem_nil
  unfold Pass.transform at h
  split at h
  · split at h
    · cases h
      exact hnil
    · obtain ⟨applied, happlied, h⟩ := except_bind_ok.1 h
      obtain ⟨bundles, _, happlied⟩ := except_bind_ok.1 happlied
      cases applied with
      | none =>
        cases h
        exact hnil
      | some result =>
        cases h
        exact applyHints_closed happlied
  · split at h
    · obtain ⟨⟨result, s', data'⟩, _, h⟩ := except_bind_ok.1 h
      cases h
      exact hnil
    · cases h
  · cases h

theorem foldTransform_closed {r : HintReader} {x : Transformed L}
    (h : foldTransform r original subStates = .ok x) : ClosedUnderParents x.writtenPaths := by
  obtain ⟨applied, happlied, h⟩ := except_bind_ok.1 h
  obtain ⟨bundles, _, happlied⟩ := except_bind_ok.1 happlied
  cases applied with
  | none =>
    cases h
    exact fun p hp => absurd hp List.not_mem_nil
  | some result =>
    cases h
    exact applyHints_closed happlied

/-- What the environment of a transform job measures, if what tests leave meets the condition `P`. -/
structure EnvSizes (P : List RelPath → TestCase → Prop) (disk : T → TestCase) (current : T)
    (env : TestEnv T L) : Prop where
  testCase : env.testCase = current
  closed : ClosedUnderParents env.writtenPaths
  exited : env.exitcode ≠ none → env.result = some .ok
  measured : env.success → ∀ v, env.variant = some v → ∃ left, P env.writtenPaths left ∧
    v = (left.removeExtraneousFiles env.writtenPaths).1 ∧
    env.sizeImprovement = .ok ((disk current).getFileSize - left.getFileSize)

namespace EnvSizes
variable {P : List RelPath → TestCase → Prop} {disk : T → TestCase} {current : T}
  {env env' : TestEnv T L}

theorem new {s : Option (PassState L)} {copy : Bool} {p : Option (Pass L)} :
    EnvSizes P disk current
      { state := s, testCase := current, shouldCopyCurrentTestCase := copy, pass := p } :=
  ⟨rfl, fun _ hp => absurd hp List.not_mem_nil, fun hne => absurd rfl hne, nofun⟩

theorem untested (hcase : env'.testCase = current) (hclosed : ClosedUnderParents env'.writtenPaths)
    (hexit : env'.exitcode = none) : EnvSizes P disk current env' := by
  refine ⟨hcase, hclosed, fun hne => absurd hexit hne, fun hsuccess => ?_⟩
  rw [TestEnv.success, hexit, decide_eq_true_eq] at hsuccess
  cases hsuccess.2

theorem exitcode_none (h : EnvSizes P disk current env) (hresult : env.result = none) :
    env.exitcode = none := by
  by_contra hne
  rw [h.exited hne] at hresult
  cases hresult

/-- Where the clean-up removes no file with contents, what is measured is real. -/
theorem real (h : EnvSizes NoBytesRemoved disk current env) (hsuccess : env.success)
    (hv : env.variant = some v) :
    env.sizeImprovement = .ok ((disk current).getFileSize - v.getFileSize) := by
  obtain ⟨left, hclean, rfl, himprovement⟩ := h.measured hsuccess v hv
  rw [himprovement, (getFileSize_removeExtraneousFiles h.closed left).2 hclean]

end EnvSizes

section
variable [DecidableEq T] {env : TestEnv T L} {test : Folder T → Int × Folder T}

theorem TestEnv.sizeImprovement_left (hresult : env.result = some .ok)
    (hcode : (test env.folder).1 = 0) (hleft : (test env.folder).2 env.testCase = some left)
    (original : TestCase) : (env.runTest test original).sizeImprovement =
      .ok (original.getFileSize - left.getFileSize) := by
  obtain ⟨hsuccess, _⟩ := runTest_success hresult hcode hleft original
  rw [runTest_left hcode hleft] at hsuccess ⊢
  exact if_pos hsuccess

/-- The reported improvement is the real one exactly if the clean-up removes no file with contents. -/
theorem TestEnv.sizeImprovement_iff (hresult : env.result = some .ok)
    (hcode : (test env.folder).1 = 0) (hleft : (test env.folder).2 env.testCase = some left)
    (hclosed : ClosedUnderParents env.writtenPaths) (original : TestCase) :
    ∃ committed, (env.runTest test original).variant = some committed ∧
      ((env.runTest test original).sizeImprovement =
        .ok (original.getFileSize - committed.getFileSize) ↔
          NoBytesRemoved env.writtenPaths left) := by
  obtain ⟨_, hvariant⟩ := runTest_success hresult hcode hleft original
  refine ⟨_, hvariant, ?_⟩
  rw [sizeImprovement_left hresult hcode hleft, ← getFileSize_removeExtraneousFiles hclosed,
    Except.ok.injEq, sub_right_inj, Nat.cast_inj, eq_comm]

namespace EnvSizes
variable {P : List RelPath → TestCase → Prop} {disk : T → TestCase} {current : T}
  {env' : TestEnv T L}

theorem runTransform (h : EnvSizes P disk current env) (hresult : env.result = none)
    (hrun : env.runTransform r seed original = (env', goesOn)) : EnvSizes P disk current env' := by
  have hexit := h.exitcode_none hresult
  rcases TestEnv.runTransform_cases hrun with ⟨x, hx, rfl, _⟩ | ⟨_, rfl | rfl⟩
  · refine untested h.testCase ?_ hexit
    rw [TestEnv.callTransform] at hx
    split at hx
    · exact Pass.transform_closed hx
    · split at hx
      · exact foldTransform_closed hx
      · cases hx
  · exact untested h.testCase h.closed hexit
  · exact h

theorem runTest (h : EnvSizes P disk current env) (hresult : env.result = some .ok)
    (hleaves : (test env.folder).1 = 0 → ∀ left, (test env.folder).2 env.testCase = some left →
      P env.writtenPaths left) : EnvSizes P disk current (env.runTest test (disk env.testCase)) := by
  obtain ⟨folder, originalSize, newSize, heq⟩ := env.runTest_eq test (disk env.testCase)
  have hframe : (env.runTest test (disk env.testCase)).testCase = env.testCase ∧
      (env.runTest test (disk env.testCase)).writtenPaths = env.writtenPaths ∧
        (env.runTest test (disk env.testCase)).result = env.result ∧
          (env.runTest test (disk env.testCase)).exitcode = some (test env.folder).1 := by
    rw [heq]
    exact ⟨rfl, rfl, rfl, rfl⟩
  obtain ⟨hcase, hpaths, hresult', hexit⟩ := hframe
  refine ⟨hcase.trans h.testCase, hpaths ▸ h.closed, fun _ => hresult'.trans hresult, ?_⟩
  intro hsuccess v hv
  rw [TestEnv.success, decide_eq_true_eq, hexit] at hsuccess
  have hcode := Option.some.inj hsuccess.2
  cases hleft : (test env.folder).2 env.testCase with
  | none =>
    simp only [TestEnv.runTest, hcode, if_true, TestEnv.variant, hleft] at hv
    cases hv
  | some left =>
    obtain ⟨_, hvariant⟩ := TestEnv.runTest_success hresult hcode hleft (disk env.testCase)
    refine ⟨left, hpaths ▸ hleaves hcode left hleft, ?_, ?_⟩
    · exact Option.some.inj (hv.symm.trans (hpaths ▸ hvariant))
    · rw [TestEnv.sizeImprovement_left hresult hcode hleft, h.testCase]

end EnvSizes

end

/-- What a test leaves of each variant that is about to be tested meets the condition `P`, if the test
succeeds. -/
def Leaves (cfg : Config T) (P : List RelPath → TestCase → Prop) (m : TestManager T L)
    (_ : Event T L) : Prop :=
  ∀ j ∈ m.jobs, ∀ env, j.work = .transform env → env.result = some .ok → env.exitcode = none →
    (cfg.test env.folder).1 = 0 → ∀ left, (cfg.test env.folder).2 env.testCase = some left →
      P env.writtenPaths left

/-- What jobs and the candidate of a batch report about sizes. -/
structure SizesInv (P : List RelPath → TestCase → Prop) (m : TestManager T L) : Prop where
  jobs : ∀ j ∈ m.jobs, ∀ env, j.work = .transform env → EnvSizes P m.disk m.currentTestCase env
  candidate : ∀ cand, m.successCandidate = some cand → ∃ env : TestEnv T L,
    EnvSizes P m.disk m.currentTestCase env ∧ env.success ∧ env.variant = some cand.testCase ∧
      env.sizeImprovement = .ok (-cand.sizeDelta)

namespace SizesInv
variable {P : List RelPath → TestCase → Prop} {m m' : TestManager T L}

theorem of_empty (hjobs : m.jobs = []) (hcand : m.successCandidate = none) : SizesInv P m where
  jobs j hj := absurd (hjobs ▸ hj) List.not_mem_nil
  candidate cand h := by
    rw [hcand] at h
    cases h

section
variable [DecidableEq T] {cfg : Config T} {e : Event T L}

theorem jobStep (h : SizesInv P m) (hleaves : Leaves cfg P m e) (hj : j ∈ m.jobs)
    (hstep : JobStep cfg m e j j') (henv : j'.work = .transform env') :
    EnvSizes P m.disk m.currentTestCase env' := by
  cases hstep with
  | copy hwork _ _ hresult =>
    cases henv
    have hsizes := h.jobs j hj _ hwork
    exact .untested hsizes.testCase hsizes.closed (hsizes.exitcode_none hresult)
  | transform hwork hresult _ hrun =>
    cases henv
    exact (h.jobs j hj _ hwork).runTransform hresult hrun
  | test hwork hresult hexit =>
    cases henv
    exact (h.jobs j hj _ hwork).runTest hresult (hleaves j hj _ hwork hresult hexit)
  | ended _ => exact h.jobs j hj _ henv

theorem jobs_move (h : SizesInv P m) (hleaves : Leaves cfg P m e) (hmove : Move cfg m e m')
    (hj' : j' ∈ m'.jobs) (henv : j'.work = .transform env) :
    EnvSizes P m.disk m.currentTestCase env := by
  cases hmove.mem_jobs hj' with
  | kept hj => exact h.jobs j' hj env henv
  | step hj _ hstep => exact h.jobStep hleaves hj hstep henv
  | initRun _ _ _ _ heq _ =>
    rw [heq] at henv
    cases henv
  | scheduled hnew =>
    cases hnew with
    | init => cases henv
    | transform =>
      cases henv
      exact .new
    | fold =>
      cases henv
      exact .new

theorem candidate_move (h : SizesInv P m) (hmove : Move cfg m e m')
    (hcand : m'.successCandidate = some cand) : ∃ env : TestEnv T L,
      EnvSizes P m.disk m.currentTestCase env ∧ env.success ∧ env.variant = some cand.testCase ∧
        env.sizeImprovement = .ok (-cand.sizeDelta) := by
  cases hmove with
  | accepted _ hj hwork hsuccess himprovement hvariant _ hnew =>
    rcases hnew with hnew | hnew
    · cases hnew.symm.trans hcand
      refine ⟨_, h.jobs _ hj _ hwork, hsuccess, hvariant, ?_⟩
      rw [himprovement, neg_neg]
    · exact h.candidate cand (hnew ▸ hcand)
  | close => cases hcand
  | commit => cases hcand
  | _ => exact h.candidate cand hcand

theorem move (h : SizesInv P m) (hphase : PhaseInv cfg m) (hleaves : Leaves cfg P m e)
    (hmove : Move cfg m e m') : SizesInv P m' := by
  have hphase' := hphase.move hmove
  rcases hmove.testCases with ⟨hdisk, hcurrent⟩ | hk
  · apply SizesInv.mk
    · intro j' hj' env henv
      rw [hdisk, hcurrent]
      exact h.jobs_move hleaves hmove hj' henv
    · intro cand hcand
      rw [hdisk, hcurrent]
      exact h.candidate_move hmove hcand
  · -- No job and no candidate is left when the test cases change.
    have hbatch : m'.phase.kind ≠ .batch ∧ m'.phase.kind ≠ .after := by
      rcases hk with hk | hk
      · exact ⟨by rw [hk]; nofun, by rw [hk]; nofun⟩
      · exact ⟨by rw [hk]; nofun, by rw [hk]; nofun⟩
    exact of_empty (hphase'.jobs hbatch.1) (hphase'.candidate hbatch.1 hbatch.2)

theorem of_run (h : Run (step cfg) (Leaves cfg P) (TestManager.start disk t name n) m)
    (halive : m.Alive) : SizesInv P m := by
  apply move_invariant h halive
  · exact of_empty rfl rfl
  · intro u e v hreach hu hinv hleaves hmove
    exact hinv.move (phaseInv_of_run hreach hu) hleaves hmove

end
end SizesInv

/-- The reported improvement is the real one, in the jobs and in the candidate, as long as the clean-up
removes no file with contents; in a job that is about to be tested exactly then. -/
theorem sizeImprovement_real [DecidableEq T] (cfg : Config T) (disk : T → TestCase) (t : T)
    (startWithPass : Option Str) (crashDirs : Nat) :
    (∀ m : TestManager T L,
      Run (step cfg) (Leaves cfg NoBytesRemoved) (.start disk t startWithPass crashDirs) m → m.Alive →
        (∀ j ∈ m.jobs, ∀ env, j.work = .transform env → env.success → ∀ v, env.variant = some v →
          env.sizeImprovement = .ok ((m.disk m.currentTestCase).getFileSize - v.getFileSize)) ∧
        ∀ cand, m.successCandidate = some cand →
          cand.sizeDelta =
            cand.testCase.getFileSize - (m.disk m.currentTestCase).getFileSize) ∧
    ∀ m : TestManager T L, Reach (step cfg) (.start disk t startWithPass crashDirs) m → m.Alive →
      ∀ j ∈ m.jobs, ∀ env, j.work = .transform env → env.result = some .ok →
        (cfg.test env.folder).1 = 0 → ∀ left, (cfg.test env.folder).2 env.testCase = some left →
          let env' := env.runTest cfg.test (m.disk m.currentTestCase)
          ∃ committed, env'.variant = some committed ∧
            (env'.sizeImprovement =
              .ok ((m.disk m.currentTestCase).getFileSize - committed.getFileSize) ↔
                NoBytesRemoved env.writtenPaths left) := by
  apply And.intro
  · intro m hrun halive
    have hinv := SizesInv.of_run hrun halive
    apply And.intro
    · intro j hj env hwork hsuccess v hv
      exact (hinv.jobs j hj env hwork).real hsuccess hv
    · intro cand hcand
      obtain ⟨env, hsizes, hsuccess, hv, himprovement⟩ := hinv.candidate cand hcand
      have hreal := Except.ok.inj (himprovement.symm.trans (hsizes.real hsuccess hv))
      omega
  · intro m hreach halive j hj env hwork hresult hcode left hleft
    have hrun := hreach.mono (D := Leaves cfg fun _ _ => True) fun _ _ _ =>
      fun _ _ _ _ _ _ _ _ _ => trivial
    have hsizes := (SizesInv.of_run hrun halive).jobs j hj env hwork
    exact TestEnv.sizeImprovement_iff hresult hcode hleft hsizes.closed _

def leavesClean (cfg : Config T) (m : TestManager T L) (_ : Event T L) : Bool :=
  m.jobs.all fun j => match j.work with
    | .init _ => true
    | .transform env => match (cfg.test env.folder).2 env.testCase with
      | none => true
      | some left => NoBytesRemoved env.writtenPaths left

theorem leaves_of_leavesClean {cfg : Config T} {m : TestManager T L} {e : Event T L}
    (h : leavesClean cfg m e) : Leaves cfg NoBytesRemoved m e := by
  intro j hj env hwork _ _ _ left hleft
  have hclean := List.all_eq_true.1 h j hj
  simp only [hwork, hleft] at hclean
  exact of_decide_eq_true hclean

/-- The directory with another file. -/
def addFile (data : Bytes) : TestCase → TestCase
  | .file original => .file original
  | .dir t =>
    match t.create ["b".toList] (.file data) with
    | .ok t' => .dir t'
    | .error _ => .dir t

/-- The test succeeds and leaves a file in the directory. -/
def leavingConfig (data : Bytes) : Config Unit where
  testCases := [()]
  test f := (0, fun t => (f t).map (addFile data))
  parallelTests_pos := Nat.one_pos
  noCache := true

def oneFile : DirTree where
  entries := [(["a".toList], .file [1, 2, 3])]
  sorted := List.pairwise_singleton _ _
  rooted := by simp

def cutFirstBundle : HintBundle where
  hints := [{ patches := [{ path := some 0, left := some 0, right := some 1 }] }]
  vocabulary := [[0x61]]

theorem cutFirstBundle_typed : cutFirstBundle.TypesIn [] := by
  intro h hh type htype
  cases List.mem_singleton.1 hh
  cases htype
  exact .inl rfl

def firstBytePass : Pass Nat where
  repr := "FirstBytePass".toList
  userVisibleName := "FirstBytePass".toList
  methods := .hint { constantHints [] [] cutFirstBundle nil_not_mem_nil cutFirstBundle_typed with
    supportsDirTestCases := true }

def leavingBatch : List (Event Unit Nat) :=
  [.runPasses ⟨[⟨firstBytePass, []⟩], false, [()]⟩, .main {}, .main {}, .main {}, .main { dir := 1 },
    .main {}, .init 1 fun _ => 0, .main {}, .main {}, .main {}, .main {}, .main {}, .main {},
    .main {}, .main { dir := 2 }, .main {}, .transform 2 fun _ => 0, .test 2, .main {},
    .main {}]

def oneFileDir : TestManager Unit Nat := .start (fun _ => .dir oneFile) () none 0

def afterLeaving (data : Bytes) : TestManager Unit Nat :=
  (runFrom (step (leavingConfig data)) oneFileDir leavingBatch).getD oneFileDir

theorem leavingBatch_empty :
    runFrom (step (leavingConfig [])) oneFileDir leavingBatch = some (afterLeaving []) := rfl

/-- The test leaves an empty file, and the candidate has one byte less and says so. -/
theorem sizeImprovement_real_trim : ∃ cand, (afterLeaving []).successCandidate = some cand ∧
    cand.sizeDelta = cand.testCase.getFileSize - 3 := by
  obtain ⟨cand, hcand⟩ : ∃ cand, (afterLeaving []).successCandidate = some cand := ⟨_, rfl⟩
  have hrun : Run (step (leavingConfig [])) (Leaves (leavingConfig []) NoBytesRemoved) oneFileDir
      (afterLeaving []) :=
    (run_of_along (c := leavesClean (leavingConfig [])) leavingBatch_empty (by decide)).mono
      fun _ _ => leaves_of_leavesClean
  have hreal := (sizeImprovement_real (L := Nat) (leavingConfig []) (fun _ => .dir oneFile) () none
    0).1 (afterLeaving []) hrun (by decide)
  exact ⟨cand, hcand, hreal.2 cand hcand⟩

theorem leavingBatch_noise :
    runFrom (step (leavingConfig [9])) oneFileDir leavingBatch = some (afterLeaving [9]) := rfl

/-- The test leaves a byte, and the candidate has one byte less and reports that it has as many. -/
theorem noise_counted : Reach (step (leavingConfig [9])) oneFileDir (afterLeaving [9]) ∧
    ∃ cand, (afterLeaving [9]).successCandidate = some cand ∧ cand.sizeDelta = 0 ∧
      cand.testCase.getFileSize = 2 ∧ ((afterLeaving [9]).disk ()).getFileSize = 3 :=
  ⟨runFrom_reach leavingBatch_noise, _, rfl, by decide, by decide, by decide⟩

end Cvise
