import Cvise.RestartQueue

namespace Cvise
set_option autoImplicit true

variable {T L : Type}

/-- A directory is not left unchanged by a job that succeeds. -/
def DirsChange (m : TestManager T L) (_ : Event T L) : Prop :=
  (m.disk m.currentTestCase).isDir → ∀ j ∈ m.jobs, ∀ env, j.work = .transform env → env.success →
    env.variant ≠ some (m.disk m.currentTestCase)

theorem filecmpCmp_self (sameMtime : Bool) {tc : TestCase} (hfile : tc.isDir = false) :
    TestCase.filecmpCmp sameMtime tc tc := by
  cases tc with
  | file data => simp [TestCase.filecmpCmp]
  | dir tree => cases hfile

theorem filecmpCmp_dir (sameMtime : Bool) {tc : TestCase} (hdir : tc.isDir) (v : TestCase) :
    TestCase.filecmpCmp sameMtime tc v = false := by
  cases tc with
  | file data => cases hdir
  | dir tree => rfl

section
variable {cfg : Config T} {m m' : TestManager T L}

/-- The result is accepted although the transform left the test case unchanged. -/
def AcceptsUnchanged (cfg : Config T) (sameMtime : Bool) (j : Job T L) (env : TestEnv T L)
    (m : TestManager T L) : Prop :=
  (∃ m', m.checkPassResult cfg sameMtime j env = .ok (.accept, m')) ∧
    env.variant = some (m.disk m.currentTestCase)

theorem acceptsUnchanged_iff {env : TestEnv T L} : AcceptsUnchanged cfg sameMtime j env m ↔
    (m.disk m.currentTestCase).isDir ∧ env.success ∧ env.tooLarge cfg.maxImprovement = .ok false ∧
      env.variant = some (m.disk m.currentTestCase) := by
  constructor
  · rintro ⟨⟨m', hcheck⟩, hvariant⟩
    cases TestManager.checkPassResult_checked hcheck with
    | accept hsuccess hlimit hv hchanged =>
      cases hvariant.symm.trans hv
      refine ⟨?_, hsuccess, hlimit, hvariant⟩
      cases hdir : (m.disk m.currentTestCase).isDir with
      | true => rfl
      | false => exact absurd (filecmpCmp_self sameMtime hdir) hchanged
  · rintro ⟨hdir, hsuccess, hlimit, hvariant⟩
    refine ⟨⟨m, ?_⟩, hvariant⟩
    rw [TestManager.checkPassResult, if_pos hsuccess, hlimit, hvariant]
    simp only [filecmpCmp_dir sameMtime hdir]
    rfl

end

def CandidateChanges (m : TestManager T L) : Prop :=
  ∀ cand, m.successCandidate = some cand → cand.testCase ≠ m.disk m.currentTestCase

theorem CandidateChanges.of_none {m : TestManager T L} (h : m.successCandidate = none) : CandidateChanges m := by
  intro cand hcand
  cases h.symm.trans hcand

section
variable [DecidableEq T] {cfg : Config T} {m m' : TestManager T L} {e : Event T L}

theorem CandidateChanges.move (h : CandidateChanges m) (hphase : PhaseInv cfg m)
    (hchange : DirsChange m e) (hmove : Move cfg m e m') : CandidateChanges m' := by
  rcases hmove.testCases with ⟨hdisk, hcurrent⟩ | hk
  · intro cand hcand
    rw [hdisk, hcurrent]
    cases hmove with
    | accepted _ hj hwork hsuccess _ hvariant hchanged hnew =>
      rcases hnew with hnew | hnew
      · cases hnew.symm.trans hcand
        rintro rfl
        cases hdir : (m.disk m.currentTestCase).isDir with
        | true => exact hchange hdir _ hj _ hwork hsuccess hvariant
        | false => exact hchanged (filecmpCmp_self _ hdir)
      · exact h cand (hnew ▸ hcand)
    | close => cases hcand
    | commit => cases hcand
    | _ => exact h cand hcand
  · have hphase' := hphase.move hmove
    apply of_none
    apply hphase'.candidate
    · rcases hk with hk | hk
      · rw [hk]
        nofun
      · rw [hk]
        nofun
    · rcases hk with hk | hk
      · rw [hk]
        nofun
      · rw [hk]
        nofun

theorem CandidateChanges.of_run (h : Run (step cfg) DirsChange (TestManager.start disk t name n) m)
    (halive : m.Alive) : CandidateChanges m := by
  apply move_invariant h halive
  · exact .of_none rfl
  · intro u e v hreach hu hinv hchange hmove
    exact hinv.move (phaseInv_of_run hreach hu) hchange hmove

end

/-- `check_pass_result` accepts an unchanged variant if and only if the test case is a directory, and
otherwise no commit leaves the test case as it is. -/
theorem commits_change [DecidableEq T] (cfg : Config T) (disk : T → TestCase) (t : T)
    (startWithPass : Option Str) (crashDirs : Nat) :
    (∀ (m : TestManager T L) sameMtime j env, AcceptsUnchanged cfg sameMtime j env m ↔
      (m.disk m.currentTestCase).isDir ∧ env.success ∧ env.tooLarge cfg.maxImprovement = .ok false ∧
        env.variant = some (m.disk m.currentTestCase)) ∧
    ∀ (m m' : TestManager T L) e cand,
      Run (step cfg) DirsChange (.start disk t startWithPass crashDirs) m → step cfg m e = some m' →
        Installs m m' cand → m'.disk m.currentTestCase ≠ m.disk m.currentTestCase := by
  refine ⟨fun m sameMtime j env => acceptsUnchanged_iff, ?_⟩
  intro m m' e cand hrun _ hinstalls
  have halive : m.Alive := by
    rw [TestManager.Alive, hinstalls.phase]
    intro h
    cases h
  have hchanges := CandidateChanges.of_run hrun halive cand hinstalls.candidate
  rw [hinstalls.disk, replaceAt, if_pos rfl]
  exact hchanges

theorem commits_change_trim : afterCommit.disk () ≠ .file [1, 2, 3] := by
  have hfile : along (step nonemptyConfig) (fun m _ => !(m.disk m.currentTestCase).isDir) threeBytes
      firstBatch := by decide
  have hrun : Run (step nonemptyConfig) DirsChange threeBytes afterFirstBatch := by
    apply (run_of_along firstBatch_run hfile).mono
    intro m e hc hdir
    rw [hdir] at hc
    cases hc
  have hinstalls : ∃ cand, Installs afterFirstBatch afterCommit cand := ⟨_, rfl, rfl, rfl⟩
  obtain ⟨cand, hinstalls⟩ := hinstalls
  exact (commits_change nonemptyConfig (fun _ => .file [1, 2, 3]) () none 0).2 afterFirstBatch
    afterCommit (.main {}) cand hrun commit_step hinstalls

def directory : TestCase :=
  .dir (DirTree.empty.push ["a".toList] (.file [0x61]) (by decide))

/-- Replaces the only byte of `a` by itself. -/
def sameByteBundle : HintBundle where
  hints := [{ patches := [{ path := some 0, left := some 0, right := some 1, value := some 0 }] }]
  vocabulary := [[0x61]]

theorem sameByteBundle_typed : sameByteBundle.TypesIn [] := by
  intro h hh type htype
  cases List.mem_singleton.1 hh
  cases htype
  exact .inl rfl

def sameBytePass : Pass Nat where
  repr := "SameBytePass".toList
  userVisibleName := "SameBytePass".toList
  methods := .hint { constantHints [] [] sameByteBundle nil_not_mem_nil sameByteBundle_typed with
    supportsDirTestCases := true }

def sameByteBatch : List (Event Unit Nat) :=
  [.runPasses ⟨[⟨sameBytePass, []⟩], false, [()]⟩, .main {}, .main {}, .main {}, .main { dir := 1 },
    .main {}, .init 1 fun _ => 0, .main {}, .main {}, .main {}, .main {}, .main {}, .main {},
    .main {}, .main { dir := 2 }, .main {}, .transform 2 fun _ => 0, .test 2, .main {},
    .main {}, .main {}, .main {}]

def oneDirectory : TestManager Unit Nat := .start (fun _ => directory) () none 0

def afterSameByte : TestManager Unit Nat :=
  (runFrom (step nonemptyConfig) oneDirectory sameByteBatch).getD oneDirectory

theorem sameByteBatch_run :
    runFrom (step nonemptyConfig) oneDirectory sameByteBatch = some afterSameByte := rfl

/-- The directory is replaced by an equal one. -/
theorem directory_unchanged : ∃ m m' cand, Reach (step nonemptyConfig) oneDirectory m ∧
    step nonemptyConfig m (.main {}) = some m' ∧ Installs m m' cand ∧ m'.disk () = m.disk () :=
  ⟨afterSameByte, afterSameByte.afterBatch, _, runFrom_reach sameByteBatch_run, rfl, ⟨rfl, rfl, rfl⟩,
    by decide⟩

end Cvise
