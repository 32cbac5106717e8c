import Cvise.CommitSafety

namespace Cvise
set_option autoImplicit true

variable {T L : Type}

namespace Cache

def items (c : Cache T) : List (CacheItem T) := c.flatMap fun g => g.2.map Prod.snd

theorem mem_group {c : Cache T} (h : x ∈ c.group k) : x.2 ∈ c.items := by
  rw [group] at h
  cases hfind : c.find? (·.1 = k) with
  | none =>
    rw [hfind] at h
    cases h
  | some g =>
    rw [hfind] at h
    exact List.mem_flatMap.2 ⟨g, List.mem_of_find?_eq_some hfind, List.mem_map.2 ⟨x, h, rfl⟩⟩

theorem lookup_mem {c : Cache T} {passes : List (Pass L)}
    (h : c.lookup passes digest = some item) : item ∈ c.items := by
  obtain ⟨x, hx, rfl⟩ := Option.map_eq_some_iff.1 h
  exact mem_group (List.mem_of_find?_eq_some hx)

theorem mem_addToMapping {mapping : Dict Bytes (CacheItem T)}
    (h : x ∈ addToMapping mapping digest item) : x ∈ mapping ∨ x.2 = item := by
  rcases List.mem_append.1 h with h | h
  · apply Or.inl
    split at h
    · exact (List.mem_filter.1 h).1
    · split at h
      · exact List.mem_of_mem_tail h
      · exact h
  · rw [List.mem_singleton.1 h]
    exact .inr rfl

theorem mem_items_add {c : Cache T} {passes : List (Pass L)}
    (h : x ∈ (c.add passes digest item).items) : x ∈ c.items ∨ x = item := by
  obtain ⟨g, hg, hx⟩ := List.mem_flatMap.1 h
  rcases List.mem_append.1 hg with hg | hg
  · exact .inl (List.mem_flatMap.2 ⟨g, (List.mem_filter.1 hg).1, hx⟩)
  · rw [List.mem_singleton.1 hg] at hx
    obtain ⟨y, hy, rfl⟩ := List.mem_map.1 hx
    exact (mem_addToMapping hy).imp_left mem_group

end Cache

variable [DecidableEq T] {cfg : Config T} {m m' : TestManager T L} {e : Event T L}

/-- What is added to the cache is a copy of the current test case as it is on the disk. -/
theorem Move.mem_cache (hmove : Move cfg m e m') (h : x ∈ m'.cache.items) :
    x ∈ m.cache.items ∨ m.phase = .finished ∧
      diskCopy cfg m.disk m.currentTestCase = some x.contents ∧ x.testCases = m.disk := by
  cases hmove with
  | finishTestCase hp hcache =>
    rcases hcache with rfl | ⟨digest, tc, hcopy, rfl⟩
    · exact .inl h
    · rcases Cache.mem_items_add h with hold | rfl
      · exact .inl hold
      · exact .inr ⟨hp, hcopy, rfl⟩
  | _ => exact .inl h

/-- With the contents that the cache holds for `t`, the test cases are again what they were when
these contents were added. -/
structure EntryCurrent (cfg : Config T) (m : TestManager T L) (t : T) (item : CacheItem T) :
    Prop where
  contents : t ∈ cfg.testCases → item.testCases t = item.contents
  others : ∀ u ∈ cfg.testCases, u ≠ t → m.disk u = item.testCases u

theorem EntryCurrent.snapshot (h : EntryCurrent cfg m t item) :
    snapshot cfg (replaceAt m.disk t item.contents) = snapshot cfg item.testCases := by
  funext u
  rw [Cvise.snapshot, Cvise.snapshot]
  split
  · rename_i hu
    rw [replaceAt]
    split
    · rename_i heq
      rw [heq, h.contents (heq ▸ hu)]
    · rename_i hne
      rw [h.others u hu hne]
  · rfl

theorem replaceAt_self (disk : T → TestCase) (t : T) : replaceAt disk t (disk t) = disk := by
  funext u
  rw [replaceAt]
  split
  · rename_i heq
    rw [heq]
  · rfl

/-- The condition on a step: a cache hit changes nothing, or it finds a current entry, and what a
commit installs was tested with what is on the disk. -/
structure HitsCurrent (cfg : Config T) (m : TestManager T L) (e : Event T L) : Prop where
  hits : ∀ t item, CacheHit cfg m t item → item.contents = m.disk t ∨ EntryCurrent cfg m t item
  commits : PlainCommit cfg m e

/-- The test cases are interesting, and so were they whenever something was added to the cache. -/
structure CacheSound (cfg : Config T) (m : TestManager T L) : Prop where
  disk : Interesting cfg m.disk
  items : m.Alive → ∀ item ∈ m.cache.items, Interesting cfg item.testCases

theorem CacheSound.step (h : CacheSound cfg m) (htest : ∀ f, (cfg.test f).2 = f)
    (hreach : Reach (step cfg) (TestManager.start files t name n) m)
    (hcurrent : HitsCurrent cfg m e) (hstep : Cvise.step cfg m e = some m') : CacheSound cfg m' := by
  apply CacheSound.mk
  · rcases step_disk hstep with hsame | ⟨u, item, hhit, hdisk⟩ | ⟨cand, hinstalls⟩
    · exact hsame ▸ h.disk
    · have halive : m.Alive := by
        rw [TestManager.Alive, hhit.phase]
        intro h
        cases h
      rcases hcurrent.hits u item hhit with hsame | hentry
      · rw [hdisk, hsame, replaceAt_self]
        exact h.disk
      · rw [Interesting, hdisk, hentry.snapshot]
        exact h.items halive item (Cache.lookup_mem hhit.found)
    · exact hinstalls.interesting htest hreach hcurrent.commits
  · intro halive item hitem
    rcases (step_move hstep halive).mem_cache hitem with hold | ⟨_, _, hdisk⟩
    · exact h.items (step_alive hstep halive) item hold
    · exact hdisk ▸ h.disk

/-- In a run whose steps all meet the condition, the test cases stay interesting. -/
theorem cacheHits_sound (htest : ∀ f, (cfg.test f).2 = f) (hdisk : Interesting cfg disk)
    (hrun : Run (step cfg) (HitsCurrent cfg)
      (TestManager.start disk t startWithPass crashDirs : TestManager T L) m) :
    Interesting cfg m.disk := by
  have hsound : CacheSound cfg m := by
    apply hrun.invariant_of_reach
    · exact CacheSound.mk hdisk fun _ item hitem => absurd hitem List.not_mem_nil
    · intro u e v hreach hu hcurrent hstep
      exact hu.step htest hreach hcurrent hstep
  exact hsound.disk

/-- Nothing brings a symlink to the test cases. -/
theorem plain_of_run (htest : ∀ f, (cfg.test f).2 = f) (hplain : ∀ u ∈ cfg.testCases, (disk u).Plain)
    (hreach : Reach (step cfg)
      (TestManager.start disk t startWithPass crashDirs : TestManager T L) m) :
    ∀ u ∈ cfg.testCases, (m.disk u).Plain := by
  have hreplaced : ∀ (files : T → TestCase) w tc, (∀ u ∈ cfg.testCases, (files u).Plain) →
      tc.Plain → ∀ u ∈ cfg.testCases, (replaceAt files w tc u).Plain := by
    intro files w tc hfiles htc u hu
    rw [replaceAt]
    split
    · exact htc
    · exact hfiles u hu
  have hitems : ∀ m, Reach (step cfg)
      (TestManager.start disk t startWithPass crashDirs : TestManager T L) m → m.Alive →
        ∀ item ∈ m.cache.items, item.contents.Plain := by
    intro m hreach halive
    apply move_invariant (P := fun m => ∀ item ∈ m.cache.items, item.contents.Plain) hreach halive
    · exact fun item hitem => absurd hitem List.not_mem_nil
    · intro u e v _ _ hinv _ hmove item hitem
      rcases hmove.mem_cache hitem with hold | ⟨_, hcopy, _⟩
      · exact hinv item hold
      · exact TestCase.plain_of_copy hcopy
  apply hreach.invariant_of_reach (P := fun m => ∀ u ∈ cfg.testCases, (m.disk u).Plain) hplain
  intro u e v hreach hu _ hstep
  rcases step_disk hstep with hsame | ⟨w, item, hhit, hdisk⟩ | ⟨cand, hinstalls⟩
  · exact hsame ▸ hu
  · have halive : u.Alive := by
      rw [TestManager.Alive, hhit.phase]
      intro h
      cases h
    rw [hdisk]
    exact hreplaced u.disk w _ hu (hitems u hreach halive item (Cache.lookup_mem hhit.found))
  · obtain ⟨events, hrun, _⟩ := hreach.events
    rw [hinstalls.disk]
    exact hreplaced u.disk _ _ hu (hinstalls.sound htest hrun).2.2.1

/-- With a single test case, in which there is no symlink, every hit finds a current entry. -/
theorem hitsCurrent_single (htest : ∀ f, (cfg.test f).2 = f) (hsingle : cfg.testCases = [t₀])
    (hplain : (disk t₀).Plain)
    (hreach : Reach (step cfg)
      (TestManager.start disk t startWithPass crashDirs : TestManager T L) m) :
    HitsCurrent cfg m e := by
  have hplain' : ∀ u ∈ cfg.testCases, (disk u).Plain := by
    intro u hu
    rw [hsingle, List.mem_singleton] at hu
    exact hu ▸ hplain
  have hitems : m.Alive → ∀ item ∈ m.cache.items, item.testCases t₀ = item.contents := by
    intro halive
    apply move_invariant (P := fun m => ∀ item ∈ m.cache.items, item.testCases t₀ = item.contents)
      hreach halive
    · exact fun item hitem => absurd hitem List.not_mem_nil
    · intro u e v hreach hu hinv _ hmove item hitem
      rcases hmove.mem_cache hitem with hold | ⟨hp, hcopy, hdisk⟩
      · exact hinv item hold
      · have hcurrent := (phaseInv_of_run hreach hu).current (by rw [hp]; intro h; cases h)
        have hexact : diskCopy cfg u.disk u.currentTestCase = some (u.disk u.currentTestCase) :=
          TestCase.copy_eq_self.2 (plain_of_run htest hplain' hreach _ hcurrent)
        rw [hsingle, List.mem_singleton] at hcurrent
        rw [hdisk, ← hcurrent]
        exact Option.some.inj (hexact.symm.trans hcopy)
  apply HitsCurrent.mk
  · intro u item hhit
    have halive : m.Alive := by
      rw [TestManager.Alive, hhit.phase]
      intro h
      cases h
    have hu : u = t₀ := by
      have hmem := (phaseInv_of_run hreach halive).rest (List.mem_of_head? hhit.next)
      rwa [hsingle, List.mem_singleton] at hmem
    apply Or.inr
    apply EntryCurrent.mk
    · intro _
      rw [hu]
      exact hitems halive item (Cache.lookup_mem hhit.found)
    · intro w hw hne
      rw [hsingle, List.mem_singleton] at hw
      exact absurd (hw.trans hu.symm) hne
  · intro _ _ u hu _
    exact plain_of_run htest hplain' hreach u hu

def cachedConfig : Config Unit := { nonemptyConfig with noCache := false }

def oneByte : TestManager Unit Nat := .start (fun _ => .file [1]) () none 0

/-- Both attempts fail, and `run_passes` is called again. -/
def trimTwice : List (Event Unit Nat) :=
  [.runPasses ⟨[⟨trimPass, []⟩], false, [()]⟩, .main {}, .main {}, .main {}, .main { dir := 1 },
    .main {}, .init 1 fun _ => 0, .main {}, .main {}, .main {}, .main {}, .main {}, .main {},
    .main {}, .main { dir := 2 }, .main {}, .copy 2 (), .transform 2 fun _ => 0, .test 2, .main {},
    .main {}, .main {}, .main {}, .main {}, .main {}, .main {}, .main { dir := 3 }, .main {},
    .copy 3 (), .transform 3 fun _ => 0, .test 3, .main {}, .main {}, .main {}, .main {}, .main {},
    .main {}, .main {}, .main {}, .main {}, .runPasses ⟨[⟨trimPass, []⟩], false, [()]⟩]

def secondCall : TestManager Unit Nat :=
  (runFrom (step cachedConfig) oneByte trimTwice).getD oneByte

theorem secondCall_run : runFrom (step cachedConfig) oneByte trimTwice = some secondCall := rfl

def afterHit : TestManager Unit Nat := secondCall.nextTestCase cachedConfig

theorem hit_step : step cachedConfig secondCall (.main {}) = some afterHit := rfl

/-- The second call takes the file from the cache. -/
theorem cacheHits_sound_single : (∃ item, CacheHit cachedConfig secondCall () item) ∧
    Interesting cachedConfig afterHit.disk := by
  have hreach := runFrom_reach secondCall_run
  apply And.intro
  · exact ⟨_, by decide, rfl, by decide, rfl, rfl⟩
  · have hrun : Run (step cachedConfig) (HitsCurrent cachedConfig) oneByte afterHit :=
      (Run.tail hreach trivial hit_step).of_reach fun m e hm =>
        hitsCurrent_single (fun f => rfl) rfl (by decide) hm
    exact cacheHits_sound (fun f => rfl) (by decide) hrun

/-- Both files may be trimmed, but not both of them. -/
def pairConfig : Config Bool where
  testCases := [true, false]
  test f := (if 3 ≤ ([true, false].map fun t => ((f t).map (·.getFileSize)).getD 0).sum then 0 else 1, f)
  parallelTests_pos := Nat.one_pos

/-- The pass that trims once in a `run_passes_for_test_case`. -/
def trimOncePass : Pass Nat := { trimPass with maxTransforms := some 1 }

def equalFiles : TestManager Bool Nat := .start (fun _ => .file [1, 2]) true none 0

/-- The first file is trimmed, which is added to the cache. -/
def trimFirst : List (Event Bool Nat) :=
  [.runPasses ⟨[⟨trimOncePass, []⟩], false, [true, false]⟩, .main {}, .main {}, .main {},
    .main { dir := 1 }, .main {}, .init 1 fun _ => 0, .main {}, .main {}, .main {}, .main {},
    .main {}, .main {}, .main {}, .main { dir := 2 }, .main {}, .copy 2 true, .copy 2 false,
    .transform 2 fun _ => 0, .test 2, .main {}, .main {}, .main {}, .main {}, .main {}, .main {},
    .main {}]

def firstTrimmed : TestManager Bool Nat :=
  (runFrom (step pairConfig) equalFiles trimFirst).getD equalFiles

theorem trimFirst_run : runFrom (step pairConfig) equalFiles trimFirst = some firstTrimmed := rfl

/-- The second file has the contents that the first one had, so it is replaced by what the first one
became. The two are not interesting together. -/
theorem cacheHit_otherTestCase : ∃ m m' item,
    Reach (step pairConfig) equalFiles m ∧ Interesting pairConfig m.disk ∧
      CacheHit pairConfig m false item ∧ step pairConfig m (.main {}) = some m' ∧
        m'.disk = replaceAt m.disk false item.contents ∧ ¬ Interesting pairConfig m'.disk := by
  refine ⟨firstTrimmed, firstTrimmed.nextTestCase pairConfig, _, runFrom_reach trimFirst_run,
    by decide, ⟨by decide, rfl, by decide, rfl, rfl⟩, rfl, rfl, by decide⟩

end Cvise
