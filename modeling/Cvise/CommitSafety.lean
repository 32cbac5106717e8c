import Cvise.PhaseInvariant

namespace Cvise
set_option autoImplicit true

variable {T L : Type}

section
variable [DecidableEq T]

/-- All test cases with their contents. -/
def snapshot (cfg : Config T) (disk : T → TestCase) : Folder T :=
  fun t => if t ∈ cfg.testCases then some (disk t) else none

def Interesting (cfg : Config T) (disk : T → TestCase) : Prop := (cfg.test (snapshot cfg disk)).1 = 0

instance (cfg : Config T) (disk : T → TestCase) : Decidable (Interesting cfg disk) :=
  inferInstanceAs (Decidable (_ = _))

def replaceAt (disk : T → TestCase) (t : T) (tc : TestCase) : T → TestCase :=
  fun u => if u = t then tc else disk u

/-- The folder in which a variant of the current test case is tested. -/
def testFolder (cfg : Config T) (disk : T → TestCase) (current : T) (v : TestCase) : Folder T :=
  fun t => if t = current then some v else if t ∈ cfg.testCases then diskCopy cfg disk t else none

/-- The variant has passed the test, among copies of the other test cases as they are on the disk. -/
structure Tested (cfg : Config T) (disk : T → TestCase) (current : T) (v : TestCase) : Prop where
  copied : ∀ t ∈ cfg.testCases, t ≠ current → diskCopy cfg disk t ≠ none
  succeeded : (cfg.test (testFolder cfg disk current v)).1 = 0

/-- No test case but the current one holds a symlink. -/
def PlainBeside (cfg : Config T) (disk : T → TestCase) (current : T) : Prop :=
  ∀ t ∈ cfg.testCases, t ≠ current → (disk t).Plain

instance (cfg : Config T) (disk : T → TestCase) (current : T) :
    Decidable (PlainBeside cfg disk current) := inferInstanceAs (Decidable (∀ _ ∈ _, _))

/-- The variant is tested together with what is on the disk, unless a symlink is followed. -/
theorem testFolder_eq {cfg : Config T} {disk : T → TestCase} {current : T} {v : TestCase}
    (hcurrent : current ∈ cfg.testCases) :
    testFolder cfg disk current v = snapshot cfg (replaceAt disk current v) ↔
      PlainBeside cfg disk current := by
  constructor
  · intro h t ht hne
    have heq := congrFun h t
    rw [testFolder, snapshot, replaceAt, if_neg hne, if_neg hne, if_pos ht, if_pos ht] at heq
    exact TestCase.copy_eq_self.1 heq
  · intro h
    funext t
    rw [testFolder, snapshot, replaceAt]
    by_cases hne : t = current
    · rw [if_pos hne, if_pos hne, if_pos (hne ▸ hcurrent)]
    · rw [if_neg hne, if_neg hne]
      split
      · rename_i ht
        exact TestCase.copy_eq_self.2 (h t ht hne)
      · rfl

theorem Tested.interesting {cfg : Config T} {disk : T → TestCase} {current : T} {v : TestCase}
    (h : Tested cfg disk current v) (hcurrent : current ∈ cfg.testCases)
    (hplain : PlainBeside cfg disk current) : Interesting cfg (replaceAt disk current v) := by
  rw [Interesting, ← (testFolder_eq hcurrent).2 hplain]
  exact h.succeeded

/-- How a candidate was made. In the run of these events its job has called `transform` when the test
cases were what they are in `m`, and this gave the variant. -/
inductive MadeFrom (cfg : Config T) (start m : TestManager T L) (cand : SuccessCandidate L) :
    List (Event T L) → Prop
  | intro (hrun : runFrom (step cfg) start before = some u) (hdisk : u.disk = m.disk)
      (hj : j ∈ u.jobs) (horder : j.order = cand.order) (hpass : j.pass = cand.pass)
      (hid : j.passId = cand.passId) (hwork : j.work = .transform env) (henv : env.pass = cand.pass)
      (hcurrent : env.testCase = m.currentTestCase)
      (hinput : ∀ tc, env.variant = some tc → tc = m.disk m.currentTestCase)
      (htransform : env.callTransform u.reader seed (m.disk m.currentTestCase) =
        .ok ⟨.ok, cand.passState, some cand.testCase, writtenPaths⟩) :
      MadeFrom cfg start m cand (before ++ .transform cand.order seed :: after)

theorem MadeFrom.here {cfg : Config T} {start m m' : TestManager T L} {cand : SuccessCandidate L}
    (h : MadeFrom cfg start m cand events) (hdisk : m'.disk = m.disk)
    (hcurrent : m'.currentTestCase = m.currentTestCase) : MadeFrom cfg start m' cand events := by
  cases h with
  | intro hrun hu hj horder hpass hid hwork henv hcur hinput htransform =>
    rw [← hdisk, ← hcurrent] at hinput htransform
    exact .intro hrun (hu.trans hdisk.symm) hj horder hpass hid hwork henv (hcur.trans hcurrent.symm)
      hinput htransform

theorem MadeFrom.later {cfg : Config T} {start m : TestManager T L} {cand : SuccessCandidate L}
    (h : MadeFrom cfg start m cand events) (e : Event T L) :
    MadeFrom cfg start m cand (events ++ [e]) := by
  cases h with
  | intro hrun hu hj horder hpass hid hwork henv hcur hinput htransform =>
    rw [List.append_assoc, List.cons_append]
    exact .intro hrun hu hj horder hpass hid hwork henv hcur hinput htransform

end

/-- The environment of a transform job has seen only copies of the test cases as they are on the
disk. -/
structure EnvSound (cfg : Config T) (disk : T → TestCase) (current : T) (env : TestEnv T L) :
    Prop where
  testCase : env.testCase = current
  copied : ∀ t, t ≠ current →
    env.folder t = none ∨ t ∈ cfg.testCases ∧ env.folder t = diskCopy cfg disk t
  fresh : env.result = none → env.variant = none ∨
    env.shouldCopyCurrentTestCase = true ∧ env.variant = diskCopy cfg disk current
  copies : env.shouldCopyCurrentTestCase = true → ∃ p, env.pass = some p ∧ p.isHintBased = false
  all : env.result ≠ none → ∀ t ∈ cfg.testCases, t ≠ current → env.folder t ≠ none
  made : env.result = some .ok → ∀ v, env.variant = some v →
    v.Plain ∧ ∀ e ∈ v.descendants, e.1 ∈ env.writtenPaths
  exited : env.exitcode ≠ none → env.result = some .ok
  tested : ∀ n, env.exitcode = some n → n = (cfg.test env.folder).1

/-- What is known of a successful transformation. -/
def Transformed.Sound (x : Transformed L) : Prop :=
  x.result = .ok → ∀ v, x.variant = some v → v.Plain ∧ ∀ e ∈ v.descendants, e.1 ∈ x.writtenPaths

theorem loadAndApplyHints_sound {r : HintReader}
    (h : r.loadAndApplyHints original states = .ok (some (some v, report))) :
    v.Plain ∧ ∀ e ∈ v.descendants, e.1 ∈ report.writtenPaths := by
  obtain ⟨bundles, _, h⟩ := except_bind_ok.1 h
  exact ⟨applyHints_plain h, applyHints_written h⟩

theorem foldTransform_sound {r : HintReader} {x : Transformed L}
    (h : foldTransform r original subStates = .ok x) : x.Sound := by
  obtain ⟨applied, happlied, h⟩ := except_bind_ok.1 h
  cases applied with
  | none =>
    cases h
    nofun
  | some result =>
    obtain ⟨variant, report⟩ := result
    cases h
    intro _ v hv
    cases hv
    exact loadAndApplyHints_sound happlied

theorem Pass.transform_sound {p : Pass L} {x : Transformed L}
    (h : p.transform r seed original copied state = .ok x) : x.Sound := by
  unfold Pass.transform at h
  split at h
  · split at h
    · cases h
      nofun
    · obtain ⟨applied, happlied, h⟩ := except_bind_ok.1 h
      cases applied with
      | none =>
        cases h
        nofun
      | some result =>
        obtain ⟨variant, report⟩ := result
        cases h
        intro _ v hv
        cases hv
        exact loadAndApplyHints_sound happlied
  · split at h
    · obtain ⟨⟨result, s', data'⟩, _, h⟩ := except_bind_ok.1 h
      cases h
      intro _ v hv
      cases hv
      exact ⟨fun e he => absurd he List.not_mem_nil, fun e he => absurd he List.not_mem_nil⟩
    · cases h
  · cases h

/-- Only a file is transformed in its copy. -/
theorem Pass.transform_copied {p : Pass L} {x : Transformed L} (hlegacy : p.isHintBased = false)
    (h : p.transform r seed original copied state = .ok x) : ∃ data, copied = some (.file data) := by
  unfold Pass.transform at h
  split at h
  · rename_i hmethods
    rw [Pass.isHintBased, hmethods] at hlegacy
    cases hlegacy
  · split at h
    · exact ⟨_, rfl⟩
    · cases h
  · cases h

namespace EnvSound
variable {cfg : Config T} {disk : T → TestCase} {current : T} {env : TestEnv T L}

theorem exitcode_none (h : EnvSound cfg disk current env) (hresult : env.result ≠ some .ok) :
    env.exitcode = none := by
  by_contra hne
  exact hresult (h.exited hne)

theorem new (current : T) (s : Option (PassState L)) {copy : Bool} {p : Option (Pass L)}
    (hcopy : copy = true → ∃ q, p = some q ∧ q.isHintBased = false) :
    EnvSound cfg disk current
      { state := s, testCase := current, shouldCopyCurrentTestCase := copy, pass := p } :=
  ⟨rfl, fun _ _ => .inl rfl, fun _ => .inl rfl, hcopy, fun hne => absurd rfl hne, nofun,
    fun hne => absurd rfl hne, nofun⟩

variable [DecidableEq T]

theorem copy (h : EnvSound cfg disk current env) (ht : t ∈ cfg.testCases)
    (hcopies : env.copies t) (hresult : env.result = none) (hcopy : diskCopy cfg disk t = some tc) :
    EnvSound cfg disk current (env.copy t tc) where
  testCase := h.testCase
  copied u hu := by
    by_cases heq : u = t
    · subst heq
      exact .inr ⟨ht, (Folder.put_self _ _ _).trans hcopy.symm⟩
    · simp only [TestEnv.copy, Folder.put_ne heq]
      exact h.copied u hu
  fresh _ := by
    by_cases heq : env.testCase = t
    · have hcurrent : env.shouldCopyCurrentTestCase = true := by
        simpa [TestEnv.copies, heq] using hcopies
      refine .inr ⟨hcurrent, ?_⟩
      simp only [TestEnv.variant, TestEnv.copy, heq, Folder.put_self]
      rw [← hcopy, ← heq, h.testCase]
    · simp only [TestEnv.variant, TestEnv.copy, Folder.put_ne heq]
      exact h.fresh hresult
  copies := h.copies
  all hne := absurd hresult hne
  made hok := by
    rw [TestEnv.copy, hresult] at hok
    cases hok
  exited := h.exited
  tested n hn := by
    rw [TestEnv.copy, h.exitcode_none (by rw [hresult]; intro h; cases h)] at hn
    cases hn

theorem all_of_copied (h : EnvSound cfg disk current env)
    (hcopied : ∀ t ∈ cfg.testCases, env.copies t → env.folder t ≠ none) :
    ∀ t ∈ cfg.testCases, t ≠ current → env.folder t ≠ none := by
  intro t ht hne
  apply hcopied t ht
  rw [TestEnv.copies, h.testCase, decide_eq_true hne, Bool.true_or]

end EnvSound

theorem TestEnv.callTransform_sound {env : TestEnv T L} {x : Transformed L}
    (h : env.callTransform r seed original = .ok x) : x.Sound := by
  rw [TestEnv.callTransform] at h
  split at h
  · exact Pass.transform_sound h
  · split at h
    · exact foldTransform_sound h
    · cases h

namespace EnvSound
variable {cfg : Config T} {disk : T → TestCase} {current : T} {env : TestEnv T L}

/-- A copy that `transform` starts from is what is on the disk. -/
theorem input (h : EnvSound cfg disk current env) (hresult : env.result = none)
    (htransform : env.callTransform r seed original = .ok x) (hv : env.variant = some tc) :
    tc = disk current := by
  rcases h.fresh hresult with hnone | ⟨hcopies, hcopy⟩
  · cases hnone.symm.trans hv
  · obtain ⟨p, hp, hlegacy⟩ := h.copies hcopies
    rw [TestEnv.callTransform, hp] at htransform
    obtain ⟨data, hdata⟩ := Pass.transform_copied hlegacy htransform
    cases hv.symm.trans hdata
    exact (TestCase.eq_of_copy_file (hcopy.symm.trans hdata)).symm

variable [DecidableEq T]

theorem runTransform (h : EnvSound cfg disk current env) (hresult : env.result = none)
    (hcopied : ∀ t ∈ cfg.testCases, env.copies t → env.folder t ≠ none)
    (hrun : env.runTransform r seed (disk env.testCase) = (env', goesOn)) :
    EnvSound cfg disk current env' := by
  have hall := h.all_of_copied hcopied
  have hexit := h.exitcode_none (by rw [hresult]; nofun)
  rcases TestEnv.runTransform_cases hrun with ⟨x, hx, rfl, _⟩ | ⟨_, rfl | rfl⟩
  · have hsound := TestEnv.callTransform_sound hx
    have hfolder : ∀ t, t ≠ current → (env.transformed x).folder t = env.folder t :=
      fun t hne => Folder.put_ne (h.testCase ▸ hne)
    have hvariant : (env.transformed x).variant = x.variant := Folder.put_self _ _ _
    apply EnvSound.mk
    case testCase => exact h.testCase
    case copied => exact fun t hne => hfolder t hne ▸ h.copied t hne
    case fresh => nofun
    case copies => exact h.copies
    case all => exact fun _ t ht hne => (hfolder t hne).symm ▸ hall t ht hne
    case made => exact fun hok v hv => hsound (Option.some.inj hok) v (hvariant ▸ hv)
    case exited => exact fun hne => absurd hexit hne
    case tested =>
      intro n hn
      rw [TestEnv.transformed, hexit] at hn
      cases hn
  · exact ⟨h.testCase, h.copied, nofun, h.copies, fun _ => hall, nofun,
      fun hne => absurd hexit hne, h.tested⟩
  · exact h

/-- The test leaves the test cases alone, and all that is in the variant was written to it. -/
theorem runTest_folder (h : EnvSound cfg disk current env) (htest : ∀ f, (cfg.test f).2 = f)
    (hresult : env.result = some .ok) (original : TestCase) :
    (env.runTest cfg.test original).folder = env.folder := by
  have hfolder := htest env.folder
  simp only [TestEnv.runTest]
  split
  · split
    · exact hfolder
    · rename_i v hv
      simp only [TestEnv.variant, hfolder] at hv ⊢
      rw [TestCase.removeExtraneousFiles_eq (h.made hresult v hv).2]
      exact Folder.put_eq hv
  · exact hfolder

theorem runTest (h : EnvSound cfg disk current env) (htest : ∀ f, (cfg.test f).2 = f)
    (hresult : env.result = some .ok) (original : TestCase) :
    EnvSound cfg disk current (env.runTest cfg.test original) := by
  have hfolder := h.runTest_folder htest hresult original
  obtain ⟨folder, originalSize, newSize, heq⟩ := env.runTest_eq cfg.test original
  rw [heq] at hfolder ⊢
  simp only at hfolder
  subst hfolder
  exact ⟨h.testCase, h.copied, h.fresh, h.copies, h.all, h.made, fun _ => hresult, fun n hn =>
    (Option.some.inj hn).symm⟩

/-- The variant of a job that succeeded has been tested with what is on the disk now. -/
theorem success (h : EnvSound cfg disk current env) (hsuccess : env.success)
    (hv : env.variant = some v) : v.Plain ∧ Tested cfg disk current v := by
  rw [TestEnv.success, decide_eq_true_eq] at hsuccess
  obtain ⟨hresult, hexit⟩ := hsuccess
  have hall := h.all (by rw [hresult]; nofun)
  have hcopy : ∀ t ∈ cfg.testCases, t ≠ current → env.folder t = diskCopy cfg disk t := by
    intro t ht hne
    rcases h.copied t hne with hnone | ⟨_, hcopy⟩
    · exact absurd hnone (hall t ht hne)
    · exact hcopy
  have hfolder : env.folder = testFolder cfg disk current v := by
    funext t
    rw [testFolder]
    by_cases hne : t = current
    · rw [if_pos hne, hne, ← h.testCase]
      exact hv
    · rw [if_neg hne]
      split
      · rename_i ht
        exact hcopy t ht hne
      · rename_i ht
        rcases h.copied t hne with hnone | ⟨hmem, _⟩
        · exact hnone
        · exact absurd hmem ht
  refine ⟨(h.made hresult v hv).1, fun t ht hne => hcopy t ht hne ▸ hall t ht hne, ?_⟩
  rw [← hfolder]
  exact (h.tested 0 hexit).symm

end EnvSound

/-- What is known of a transform job: its environment, and how its variant was made. -/
structure JobSound [DecidableEq T] (cfg : Config T) (start : TestManager T L)
    (events : List (Event T L)) (m : TestManager T L) (j : Job T L) (env : TestEnv T L) : Prop where
  sound : EnvSound cfg m.disk m.currentTestCase env
  pass : env.pass = j.pass
  made : env.result = some .ok → ∀ v, env.variant = some v → ∀ delta,
    MadeFrom cfg start m ⟨j.order, j.pass, j.passId, env.state, delta, v⟩ events

/-- The jobs and the candidate of a batch belong to the test cases as they are on the disk. -/
structure Sound [DecidableEq T] (cfg : Config T) (start : TestManager T L)
    (events : List (Event T L)) (m : TestManager T L) : Prop where
  jobs : ∀ j ∈ m.jobs, ∀ env, j.work = .transform env → JobSound cfg start events m j env
  candidate : ∀ cand, m.successCandidate = some cand → MadeFrom cfg start m cand events ∧
    cand.testCase.Plain ∧ Tested cfg m.disk m.currentTestCase cand.testCase

section
variable [DecidableEq T] {cfg : Config T} {start m m' : TestManager T L} {e : Event T L}

theorem JobSound.later {j : Job T L} (h : JobSound cfg start events m j env) (e : Event T L) :
    JobSound cfg start (events ++ [e]) m j env :=
  ⟨h.sound, h.pass, fun hok v hv delta => (h.made hok v hv delta).later e⟩

theorem JobSound.new {j : Job T L} (hnew : NewJob m j) (hwork : j.work = .transform env) :
    JobSound cfg start events m j env := by
  cases hnew with
  | init => cases hwork
  | transform =>
    cases hwork
    refine ⟨.new _ _ fun hcopy => ⟨_, rfl, ?_⟩, rfl, nofun⟩
    rwa [Bool.not_eq_true'] at hcopy
  | fold =>
    cases hwork
    exact ⟨.new _ _ nofun, rfl, nofun⟩

namespace Sound

theorem of_empty (hjobs : m.jobs = []) (hcand : m.successCandidate = none) :
    Sound cfg start events m where
  jobs j hj := absurd (hjobs ▸ hj) List.not_mem_nil
  candidate cand h := by
    rw [hcand] at h
    cases h

theorem jobStep (h : Sound cfg start events m) (htest : ∀ f, (cfg.test f).2 = f)
    (hrun : runFrom (step cfg) start events = some m) (hj : j ∈ m.jobs)
    (hstep : JobStep cfg m e j j') (henv : j'.work = .transform env') :
    JobSound cfg start (events ++ [e]) m j' env' := by
  cases hstep with
  | copy hwork ht hcopies hresult hcopied =>
    cases henv
    obtain ⟨hsound, hpass, _⟩ := h.jobs j hj _ hwork
    refine ⟨hsound.copy ht hcopies hresult hcopied, hpass, fun hok => ?_⟩
    rw [TestEnv.copy, hresult] at hok
    cases hok
  | transform hwork hresult hcopied htransform he =>
    cases henv
    obtain ⟨hsound, hpass, _⟩ := h.jobs j hj _ hwork
    refine ⟨hsound.runTransform hresult hcopied htransform, ?_, ?_⟩
    · rcases TestEnv.runTransform_cases htransform with ⟨x, _, rfl, _⟩ | ⟨_, rfl | rfl⟩
      · exact hpass
      · exact hpass
      · exact hpass
    · intro hok v hv delta
      rcases TestEnv.runTransform_cases htransform with ⟨x, hx, rfl, _⟩ | ⟨_, rfl | rfl⟩
      · have hvariant : x.variant = some v := (Folder.put_self _ _ _).symm.trans hv
        obtain ⟨result, state, variant, writtenPaths⟩ := x
        cases Option.some.inj hok
        cases hvariant
        rw [hsound.testCase] at hx
        rw [he]
        exact .intro hrun rfl hj rfl rfl rfl hwork hpass hsound.testCase
          (fun tc => hsound.input hresult hx) hx
      · cases hok
      · exact absurd (hresult.symm.trans hok) nofun
  | test hwork hresult hexit =>
    rename_i env
    cases henv
    obtain ⟨hsound, hpass, hmade⟩ := h.jobs j hj _ hwork
    have hfolder := hsound.runTest_folder htest hresult (m.disk env.testCase)
    have hsound' := hsound.runTest htest hresult (m.disk env.testCase)
    obtain ⟨_, _, _, heq⟩ := env.runTest_eq cfg.test (m.disk env.testCase)
    rw [heq] at hfolder hsound' ⊢
    simp only at hfolder
    subst hfolder
    exact ⟨hsound', hpass, fun hok v hv delta => (hmade hok v hv delta).later e⟩
  | ended _ =>
    obtain ⟨hsound, hpass, hmade⟩ := h.jobs j hj _ henv
    exact ⟨hsound, hpass, fun hok v hv delta => (hmade hok v hv delta).later e⟩

theorem jobs_move (h : Sound cfg start events m) (htest : ∀ f, (cfg.test f).2 = f)
    (hrun : runFrom (step cfg) start events = some m) (hmove : Move cfg m e m')
    (hj' : j' ∈ m'.jobs) (henv : j'.work = .transform env) :
    JobSound cfg start (events ++ [e]) m j' env := by
  cases hmove.mem_jobs hj' with
  | kept hj => exact (h.jobs j' hj env henv).later e
  | step hj _ hstep => exact h.jobStep htest hrun hj hstep henv
  | initRun _ _ _ _ heq _ =>
    rw [heq] at henv
    cases henv
  | scheduled hnew _ _ _ _ => exact .new hnew henv

theorem candidate_move (h : Sound cfg start events m) (hmove : Move cfg m e m')
    (hcand : m'.successCandidate = some cand) : MadeFrom cfg start m cand (events ++ [e]) ∧
      cand.testCase.Plain ∧ Tested cfg m.disk m.currentTestCase cand.testCase := by
  have hkept : m.successCandidate = some cand → MadeFrom cfg start m cand (events ++ [e]) ∧
      cand.testCase.Plain ∧ Tested cfg m.disk m.currentTestCase cand.testCase := by
    intro hold
    obtain ⟨hmade, htested⟩ := h.candidate cand hold
    exact ⟨hmade.later e, htested⟩
  cases hmove with
  | accepted hp hj hwork hsuccess _ hvariant _ hnew =>
    rcases hnew with hnew | hnew
    · cases hnew.symm.trans hcand
      obtain ⟨hsound, _, hmade⟩ := h.jobs _ hj _ hwork
      have hok : _ = some PassResult.ok := (of_decide_eq_true hsuccess).1
      exact ⟨(hmade hok _ hvariant _).later e, hsound.success hsuccess hvariant⟩
    · exact hkept (hnew ▸ hcand)
  | close => cases hcand
  | commit => cases hcand
  | _ => exact hkept hcand

theorem move (h : Sound cfg start events m) (hphase : PhaseInv cfg m)
    (htest : ∀ f, (cfg.test f).2 = f) (hrun : runFrom (step cfg) start events = some m)
    (hmove : Move cfg m e m') : Sound cfg start (events ++ [e]) m' := by
  have hphase' := hphase.move hmove
  rcases hmove.testCases with ⟨hdisk, hcurrent⟩ | hk
  · apply Sound.mk
    · intro j' hj' env henv
      obtain ⟨hsound, hpass, hmade⟩ := h.jobs_move htest hrun hmove hj' henv
      refine ⟨?_, hpass, fun hok v hv delta => (hmade hok v hv delta).here hdisk hcurrent⟩
      rw [hdisk, hcurrent]
      exact hsound
    · intro cand hcand
      obtain ⟨hmade, htested⟩ := h.candidate_move hmove hcand
      refine ⟨hmade.here hdisk hcurrent, ?_⟩
      rw [hdisk, hcurrent]
      exact htested
  · -- No job and no candidate is left when the test cases change.
    have hbatch : m'.phase.kind ≠ .batch := by
      rcases hk with hk | hk
      · rw [hk]
        nofun
      · rw [hk]
        nofun
    have hafter : m'.phase.kind ≠ .after := by
      rcases hk with hk | hk
      · rw [hk]
        nofun
      · rw [hk]
        nofun
    exact of_empty (hphase'.jobs hbatch) (hphase'.candidate hbatch hafter)

theorem of_run (htest : ∀ f, (cfg.test f).2 = f)
    (hrun : runFrom (step cfg) (TestManager.start disk t name n) events = some m)
    (halive : m.Alive) : Sound cfg (.start disk t name n) events m := by
  have hall : m.Alive → Sound cfg (.start disk t name n) events m := by
    apply runFrom_invariant (P := fun es m => m.Alive → Sound cfg (.start disk t name n) es m) hrun
    · exact fun _ => of_empty rfl rfl
    · intro es e u v hu hinv hstep hv
      have halive := step_alive hstep hv
      exact (hinv halive).move (phaseInv_of_run (runFrom_reach hu) halive) htest hu
        (step_move hstep hv)
  exact hall halive

end Sound

/-- `process_result` installs the candidate, whether or not it can update the statistics then. -/
structure Installs (m m' : TestManager T L) (cand : SuccessCandidate L) : Prop where
  phase : m.phase = .afterBatch
  candidate : m.successCandidate = some cand
  disk : m'.disk = replaceAt m.disk m.currentTestCase cand.testCase

theorem step_disk (h : step cfg m e = some m') : m'.disk = m.disk ∨
    (∃ t item, CacheHit cfg m t item ∧ m'.disk = replaceAt m.disk t item.contents) ∨
    ∃ cand, Installs m m' cand := by
  rcases step_effect h with hmove | ⟨err, hraised⟩
  · rcases hmove.disk with hdisk | hhit | ⟨hp, cand, hcand, hdisk⟩
    · exact .inl hdisk
    · exact .inr (.inl hhit)
    · exact .inr (.inr ⟨cand, hp, hcand, hdisk⟩)
  · cases hraised with
    | advance _ hdisk => exact .inl hdisk
    | job _ hdisk => exact .inl hdisk
    | commit _ hp hcand hdisk => exact .inr (.inr ⟨_, hp, hcand, hdisk⟩)
    | manager _ hdisk => exact .inl hdisk

/-- A commit in a run: what it installs was made from what it replaces, and has passed the test. -/
theorem Installs.sound (hinstalls : Installs m m' cand) (htest : ∀ f, (cfg.test f).2 = f)
    (hrun : runFrom (step cfg) (TestManager.start files t name n) events = some m) :
    m.currentTestCase ∈ cfg.testCases ∧ MadeFrom cfg (.start files t name n) m cand events ∧
      cand.testCase.Plain ∧ Tested cfg m.disk m.currentTestCase cand.testCase := by
  have halive : m.Alive := by
    rw [TestManager.Alive, hinstalls.phase]
    nofun
  have hcurrent := (phaseInv_of_run (runFrom_reach hrun) halive).current
    (by rw [hinstalls.phase]; nofun)
  exact ⟨hcurrent, (Sound.of_run htest hrun halive).candidate cand hinstalls.candidate⟩

/-- The loop over the test cases does not take the next one from the cache. -/
def NoCacheHit (cfg : Config T) (m : TestManager T L) (_ : Event T L) : Prop :=
  ∀ t item, ¬ CacheHit cfg m t item

/-- When a candidate is about to be installed, no other test case holds a symlink. -/
def PlainCommit (cfg : Config T) (m : TestManager T L) (_ : Event T L) : Prop :=
  m.phase = .afterBatch → m.successCandidate ≠ none → PlainBeside cfg m.disk m.currentTestCase

theorem Installs.interesting (hinstalls : Installs m m' cand) (htest : ∀ f, (cfg.test f).2 = f)
    (hreach : Reach (step cfg) (TestManager.start files t name n) m) (hplain : PlainCommit cfg m e) :
    Interesting cfg m'.disk := by
  obtain ⟨events, hrun, _⟩ := hreach.events
  obtain ⟨hcurrent, _, _, htested⟩ := hinstalls.sound htest hrun
  rw [hinstalls.disk]
  apply htested.interesting hcurrent
  apply hplain hinstalls.phase
  rw [hinstalls.candidate]
  nofun

/-- A step leaves the test cases alone, takes one from the cache, or installs a variant that its job
has made from the test case that it replaces, and that has passed the test among copies of the others
as they are; these copies are what is on the disk just if no symlink is in the others. So without the
cache, the test cases stay interesting where this holds at each commit. -/
theorem commits_safe (htest : ∀ f, (cfg.test f).2 = f) (disk : T → TestCase) (t : T)
    (startWithPass : Option Str) (crashDirs : Nat) :
    (∀ events, ∀ m m' : TestManager T L, ∀ e,
      runFrom (step cfg) (.start disk t startWithPass crashDirs) events = some m →
      step cfg m e = some m' →
        m'.disk = m.disk ∨
          (∃ t item, CacheHit cfg m t item ∧ m'.disk = replaceAt m.disk t item.contents) ∨
          ∃ cand, Installs m m' cand ∧
            MadeFrom cfg (.start disk t startWithPass crashDirs) m cand events ∧
            Tested cfg m.disk m.currentTestCase cand.testCase ∧
            (testFolder cfg m.disk m.currentTestCase cand.testCase = snapshot cfg m'.disk ↔
              PlainBeside cfg m.disk m.currentTestCase)) ∧
      (Interesting cfg disk → ∀ m : TestManager T L,
        Run (step cfg) (fun m e => NoCacheHit cfg m e ∧ PlainCommit cfg m e)
          (.start disk t startWithPass crashDirs) m → Interesting cfg m.disk) := by
  apply And.intro
  · intro events m m' e hrun hstep
    rcases step_disk hstep with hsame | hhit | ⟨cand, hinstalls⟩
    · exact .inl hsame
    · exact .inr (.inl hhit)
    · obtain ⟨hcurrent, hmade, _, htested⟩ := hinstalls.sound htest hrun
      refine .inr (.inr ⟨cand, hinstalls, hmade, htested, ?_⟩)
      rw [hinstalls.disk]
      exact testFolder_eq hcurrent
  · intro hdisk m hrun
    apply hrun.invariant_of_reach (P := fun m => Interesting cfg m.disk) hdisk
    rintro u e v hreach hu ⟨hmiss, hplain⟩ hstep
    rcases step_disk hstep with hsame | ⟨t, item, hhit, _⟩ | ⟨cand, hinstalls⟩
    · rw [hsame]
      exact hu
    · exact absurd hhit (hmiss t item)
    · exact hinstalls.interesting htest hreach hplain

end

/-- A pass that removes the last byte, in two attempts. -/
def trimPass : Pass Nat where
  repr := "TrimPass".toList
  userVisibleName := "TrimPass".toList
  methods := .legacy
    { new := fun _ _ => .ok (some 0)
      advance := fun _ _ s => .ok (if s = 0 then some 1 else none)
      advanceOnSuccess := fun _ _ s _ => .ok (some s)
      transform := fun _ data s => .ok (.ok, some s, data.dropLast)
      realChunk := fun _ => 1 }

/-- The test succeeds for each file that is not empty. -/
def nonemptyConfig : Config Unit where
  testCases := [()]
  test f := (if (f ()).any fun tc => tc.getFileSize ≠ 0 then 0 else 1, f)
  parallelTests_pos := Nat.one_pos
  noCache := true

def threeBytes : TestManager Unit Nat := .start (fun _ => .file [1, 2, 3]) () none 0

def firstBatch : List (Event Unit Nat) :=
  [.runPasses ⟨[⟨trimPass, []⟩], false, [()]⟩, .main {}, .main {}, .main {}, .main { dir := 1 },
    .main {}, .init 1 fun _ => 0, .main {}, .main {}, .main {}, .main {}, .main {}, .main {},
    .main {}, .main { dir := 2 }, .main {}, .copy 2 (), .transform 2 fun _ => 0, .test 2, .main {},
    .main {}, .main {}, .main {}]

def afterFirstBatch : TestManager Unit Nat :=
  (runFrom (step nonemptyConfig) threeBytes firstBatch).getD threeBytes

theorem firstBatch_run :
    runFrom (step nonemptyConfig) threeBytes firstBatch = some afterFirstBatch := rfl

def afterCommit : TestManager Unit Nat := afterFirstBatch.afterBatch

theorem commit_step : step nonemptyConfig afterFirstBatch (.main {}) = some afterCommit := rfl

example : afterCommit.disk () = .file [1, 2] := by decide

/-- The file without its last byte is installed, and it is interesting. -/
theorem commits_safe_trim : (∃ cand, Installs afterFirstBatch afterCommit cand ∧
    MadeFrom nonemptyConfig threeBytes afterFirstBatch cand firstBatch ∧
    Tested nonemptyConfig afterFirstBatch.disk () cand.testCase) ∧
      Interesting nonemptyConfig afterCommit.disk := by
  have htest : ∀ f, (nonemptyConfig.test f).2 = f := fun f => rfl
  have hsafe := commits_safe (L := Nat) htest (fun _ => .file [1, 2, 3]) () none 0
  apply And.intro
  · rcases hsafe.1 firstBatch afterFirstBatch afterCommit (.main {}) firstBatch_run commit_step with
      hsame | ⟨t, item, hhit, _⟩ | ⟨cand, hinstalls, hmade, htested, _⟩
    · exact absurd (congrFun hsame ()) (by decide)
    · exact absurd hhit.phase (by decide)
    · exact ⟨cand, hinstalls, hmade, htested⟩
  · apply hsafe.2 (by decide)
    apply (Run.tail (runFrom_reach firstBatch_run) trivial commit_step).mono
    intro m e _
    apply And.intro
    · intro t item hhit
      exact absurd hhit.enabled (by decide)
    · intro _ _ t _ hne
      exact absurd rfl hne

/-- A directory with a file and a symlink to it. -/
def fileBesideLink : DirTree where
  entries := [(["l".toList], .symlink "x".toList (.file [["x".toList]] [7])),
    (["x".toList], .file [7])]
  sorted := by decide
  rooted := by decide

/-- The test wants three bytes in the file, or no symlink in the directory. -/
def linkConfig : Config Bool where
  testCases := [true, false]
  test f :=
    (if (f true).any (3 ≤ ·.getFileSize) ∨ (f false).any fun tc => tc.descendants.all (!·.2.isSymlink)
      then 0 else 1, f)
  parallelTests_pos := Nat.one_pos
  noCache := true

def fileAndLink : TestManager Bool Nat :=
  .start (fun t => if t then .file [1, 2, 3] else .dir fileBesideLink) true none 0

/-- The first batch, on the file. -/
def linkBatch : List (Event Bool Nat) :=
  [.runPasses ⟨[⟨trimPass, []⟩], false, [true, false]⟩, .main {}, .main {}, .main {},
    .main { dir := 1 }, .main {}, .init 1 fun _ => 0, .main {}, .main {}, .main {}, .main {},
    .main {}, .main {}, .main {}, .main { dir := 2 }, .main {}, .copy 2 true, .copy 2 false,
    .transform 2 fun _ => 0, .test 2, .main {}, .main {}, .main {}, .main {}]

def afterLinkBatch : TestManager Bool Nat :=
  (runFrom (step linkConfig) fileAndLink linkBatch).getD fileAndLink

theorem linkBatch_run : runFrom (step linkConfig) fileAndLink linkBatch = some afterLinkBatch := rfl

/-- The file is trimmed, although it has only passed the test beside a directory without symlinks. -/
theorem commit_beside_link : (∀ f, (linkConfig.test f).2 = f) ∧
    Interesting linkConfig fileAndLink.disk ∧ ∃ m m' cand,
      Run (step linkConfig) (NoCacheHit linkConfig) fileAndLink m ∧
        step linkConfig m (.main {}) = some m' ∧ Installs m m' cand ∧
          Interesting linkConfig m.disk ∧ ¬ Interesting linkConfig m'.disk := by
  refine ⟨fun _ => rfl, by decide, afterLinkBatch, afterLinkBatch.afterBatch, _, ?_, rfl,
    ⟨rfl, rfl, rfl⟩, by decide, by decide⟩
  apply (runFrom_reach linkBatch_run).mono
  intro m e _ t item hhit
  exact absurd hhit.enabled (by decide)

end Cvise
