import Cvise.StepMoves

namespace Cvise
set_option autoImplicit true

variable {T L : Type} {cfg : Config T} {m m' : TestManager T L}

/-- What the part of `run_passes` says about the jobs, the candidate and the test cases. -/
structure PhaseInv (cfg : Config T) (m : TestManager T L) : Prop where
  jobs : m.phase.kind ≠ .batch → m.jobs = []
  candidate : m.phase.kind ≠ .batch → m.phase.kind ≠ .after → m.successCandidate = none
  current : m.phase.kind ≠ .outside → m.currentTestCase ∈ cfg.testCases
  rest : m.frame.rest ⊆ cfg.testCases

namespace PhaseInv

theorem start : PhaseInv cfg (TestManager.start disk t name n : TestManager T L) where
  jobs _ := rfl
  candidate _ _ := rfl
  current h := absurd rfl h
  rest := List.nil_subset _

theorem batch (h : PhaseInv cfg m) (hk : m.phase.kind = .batch) (hk' : m'.phase.kind = .batch)
    (hcur : m'.currentTestCase = m.currentTestCase) (hframe : m'.frame = m.frame) :
    PhaseInv cfg m' where
  jobs hne := absurd hk' hne
  candidate hne := absurd hk' hne
  current _ := hcur ▸ h.current (by rw [hk]; nofun)
  rest := hframe ▸ h.rest

/-- Between the batches there are no jobs, and the test case stays the same. -/
theorem quiet (h : PhaseInv cfg m) (hk : m.phase.kind = .between ∨ m.phase.kind = .after)
    (hjobs : m'.jobs = m.jobs) (hcand : m'.phase.kind ≠ .batch → m'.successCandidate = none)
    (hcur : m'.currentTestCase = m.currentTestCase) (hrest : m'.frame.rest = m.frame.rest) :
    PhaseInv cfg m' where
  jobs _ := by
    rw [hjobs]
    apply h.jobs
    rcases hk with hk | hk
    · rw [hk]
      nofun
    · rw [hk]
      nofun
  candidate hne _ := hcand hne
  current _ := by
    rw [hcur]
    apply h.current
    rcases hk with hk | hk
    · rw [hk]
      nofun
    · rw [hk]
      nofun
  rest := hrest ▸ h.rest

theorem next (h : PhaseInv cfg m) (hp : m.phase = .testCases)
    (hrest : m.frame.rest = t :: m'.frame.rest) (hjobs : m'.jobs = [] ∨ m'.jobs = m.jobs)
    (hcand : m'.successCandidate = m.successCandidate) (hcur : m'.currentTestCase = t) :
    PhaseInv cfg m' where
  jobs _ := by
    rcases hjobs with hjobs | hjobs
    · exact hjobs
    · exact hjobs ▸ h.jobs (by rw [hp]; nofun)
  candidate _ _ := hcand ▸ h.candidate (by rw [hp]; nofun) (by rw [hp]; nofun)
  current _ := hcur ▸ h.rest (hrest ▸ List.mem_cons_self)
  rest := fun u hu => h.rest (hrest ▸ List.mem_cons_of_mem _ hu)

theorem work (h : PhaseInv cfg m) (hj : j ∈ m.jobs) (hphase : m'.phase = m.phase)
    (hcur : m'.currentTestCase = m.currentTestCase) (hframe : m'.frame = m.frame) :
    PhaseInv cfg m' := by
  by_cases hk : m.phase.kind = .batch
  · exact h.batch hk (hphase ▸ hk) hcur hframe
  · rw [h.jobs hk] at hj
    cases hj

variable [DecidableEq T] {e : Event T L}

theorem move (h : PhaseInv cfg m) (hmove : Move cfg m e m') :
    PhaseInv cfg m' := by
  cases hmove with
  | control hp _ _ => exact ⟨hp ▸ h.jobs, hp ▸ h.candidate, hp ▸ h.current, h.rest⟩
  | noCandidate hp hcand => exact h.quiet (.inr (by rw [hp]; rfl)) rfl (fun _ => hcand) rfl rfl
  | call hp hrest =>
    have hk : m.phase.kind = .outside := by rw [hp]; rfl
    exact ⟨fun _ => h.jobs (by rw [hk]; nofun), fun _ _ => h.candidate (by rw [hk]; nofun)
      (by rw [hk]; nofun), fun hne => absurd rfl hne, hrest⟩
  | skipEmpty hp hrest => exact h.next hp hrest (.inr rfl) rfl rfl
  | cacheHit hhit hrest => exact h.next hhit.phase hrest (.inl rfl) rfl rfl
  | openTestCase hp hrest => exact h.next hp hrest (.inl rfl) rfl rfl
  | close hp =>
    exact ⟨fun _ => h.jobs (by rw [hp]; nofun), fun _ _ => rfl, fun hne => absurd rfl hne, h.rest⟩
  | startBatch hp =>
    exact h.quiet (.inl (by rw [hp]; rfl)) rfl (fun hne => absurd rfl hne) rfl rfl
  | init hp =>
    have hk : m.phase.kind = .batch := by rw [hp]; rfl
    exact h.batch hk hk rfl rfl
  | restart hp => exact h.batch (by rw [hp]; rfl) rfl rfl rfl
  | pop hp => exact h.batch (by rw [hp]; rfl) rfl rfl rfl
  | noFold hp => exact h.batch (by rw [hp]; rfl) rfl rfl rfl
  | fold hp => exact h.batch (by rw [hp]; rfl) rfl rfl rfl
  | noTransform hp hkind => exact h.batch (by rw [hp]; rfl) hkind rfl rfl
  | transform hp => exact h.batch (by rw [hp]; rfl) rfl rfl rfl
  | cancelLost hp => exact h.batch (by rw [hp]; rfl) rfl rfl rfl
  | timedOut hp => exact h.batch (by rw [hp]; rfl) rfl rfl rfl
  | initialized hp => exact h.batch (by rw [hp]; rfl) rfl rfl rfl
  | stopped hp => exact h.batch (by rw [hp]; rfl) rfl rfl rfl
  | ignored hp => exact h.batch (by rw [hp]; rfl) rfl rfl rfl
  | accepted hp => exact h.batch (by rw [hp]; rfl) rfl rfl rfl
  | endBatch hp =>
    exact ⟨fun _ => rfl, fun _ hne => absurd rfl hne,
      fun _ => h.current (by rw [hp]; nofun), h.rest⟩
  | commit hp _ hrest => exact h.quiet (.inr (by rw [hp]; rfl)) rfl (fun _ => rfl) rfl hrest
  | finishTestCase hp =>
    have hk : m.phase.kind = .between := by rw [hp]; rfl
    exact ⟨fun _ => h.jobs (by rw [hk]; nofun), fun _ _ => h.candidate (by rw [hk]; nofun)
      (by rw [hk]; nofun), fun hne => absurd rfl hne, h.rest⟩
  | work hj => exact h.work hj rfl rfl rfl
  | initRun hj => exact h.work hj rfl rfl rfl

end PhaseInv

theorem phaseInv_of_run [DecidableEq T] (h : Run (step cfg) C (TestManager.start disk t name n) m)
    (halive : m.Alive) : PhaseInv cfg m :=
  move_invariant h halive .start fun _ _ _ _ _ hinv _ => hinv.move

end Cvise
