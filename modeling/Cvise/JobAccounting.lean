import Cvise.CommitSafety
import Cvise.Directories

namespace Cvise
set_option autoImplicit true

variable {T L : Type}

def leaving (m m' : TestManager T L) : List (Job T L) :=
  m.jobs.filter fun j => j.order ∉ m'.jobs.map (·.order)

/-- The jobs that leave the manager in the course of these events, each with whether its result is
accepted then. -/
def departed [DecidableEq T] (cfg : Config T) :
    TestManager T L → List (Event T L) → List (Job T L × Bool)
  | _, [] => []
  | m, e :: es =>
    match step cfg m e with
    | none => []
    | some m' => (leaving m m').map (fun j => (j, m.accepts cfg e j)) ++ departed cfg m' es

/-- The job transforms for a pass of this visible name, or it folds if there is none. -/
def Job.countsFor (name : Option Str) (j : Job T L) : Bool :=
  j.isTransform && decide (j.pass.map (·.userVisibleName) = name)

/-- The statistics are those of the jobs that have left. -/
structure Counted (s : PassStatistic) (left : List (Job T L × Bool)) : Prop where
  executed : ∀ name, (s.getStats name).totallyExecuted = left.countP fun e => e.1.countsFor name
  worked : ∀ name, (s.getStats name).worked = left.countP fun e => e.1.countsFor name && e.2
  failed : ∀ name, (s.getStats name).failed = left.countP fun e => e.1.countsFor name && !e.2

namespace Counted
variable {s s' : PassStatistic} {left : List (Job T L × Bool)} {j : Job T L} {b : Bool}

theorem total (h : Counted s left) (name : Option Str) :
    (s.getStats name).worked + (s.getStats name).failed = (s.getStats name).totallyExecuted := by
  have hsplit := List.countP_eq_countP_filter_add left (fun e => e.1.countsFor name) fun e => e.2
  rw [List.countP_filter, List.countP_filter] at hsplit
  rw [h.executed, h.worked, h.failed, hsplit]

theorem resized (h : Counted s left)
    (hs : ∀ name, ∃ size, s'.getStats name = { s.getStats name with totalSizeDelta := size }) :
    Counted s' left := by
  constructor
  · intro name
    obtain ⟨size, heq⟩ := hs name
    rw [heq]
    exact h.executed name
  · intro name
    obtain ⟨size, heq⟩ := hs name
    rw [heq]
    exact h.worked name
  · intro name
    obtain ⟨size, heq⟩ := hs name
    rw [heq]
    exact h.failed name

theorem counts {f : SinglePassStatistic → SinglePassStatistic} (h : Counted s left)
    (hs : ∀ name, s'.getStats name =
      if j.pass.map (·.userVisibleName) = name then f (s.getStats name) else s.getStats name)
    (hexecuted : ∀ x, (f x).totallyExecuted = x.totallyExecuted + (if j.isTransform then 1 else 0))
    (hworked : ∀ x, (f x).worked = x.worked + (if j.isTransform && b then 1 else 0))
    (hfailed : ∀ x, (f x).failed = x.failed + (if j.isTransform && !b then 1 else 0)) :
    Counted s' (left ++ [(j, b)]) := by
  constructor
  · intro name
    rw [List.countP_append, List.countP_singleton, ← h.executed, hs, Job.countsFor]
    by_cases hname : j.pass.map (·.userVisibleName) = name
    · simp [hname, hexecuted]
    · simp [hname]
  · intro name
    rw [List.countP_append, List.countP_singleton, ← h.worked, hs, Job.countsFor]
    by_cases hname : j.pass.map (·.userVisibleName) = name
    · simp [hname, hworked]
    · simp [hname]
  · intro name
    rw [List.countP_append, List.countP_singleton, ← h.failed, hs, Job.countsFor]
    by_cases hname : j.pass.map (·.userVisibleName) = name
    · simp [hname, hfailed]
    · simp [hname]

theorem initialized (h : Counted s left) (hinit : j.isTransform = false) :
    Counted (s.addInitialized j.pass) (left ++ [(j, b)]) := by
  apply h.counts (PassStatistic.getStats_update id s j.pass)
  · simp [hinit]
  · simp [hinit]
  · simp [hinit]

theorem aborted (h : Counted s left) :
    Counted (s.addAborted j.pass j.isTransform) (left ++ [(j, false)]) := by
  apply h.counts (PassStatistic.getStats_update _ s j.pass)
  · intro x
    split
    · rfl
    · rfl
  · intro x
    split
    · simp
    · simp
  · intro x
    split
    · simp_all
    · simp_all

theorem succeeded (h : Counted s left) (htransform : j.isTransform = true) :
    Counted ((s.addExecuted j.pass).addSuccess j.pass) (left ++ [(j, true)]) := by
  apply h.counts (f := fun x =>
    { x with totallyExecuted := x.totallyExecuted + 1, worked := x.worked + 1 })
  · intro name
    rw [PassStatistic.addSuccess, PassStatistic.addExecuted, PassStatistic.getStats_update,
      PassStatistic.getStats_update]
    split
    · rfl
    · rfl
  · simp [htransform]
  · simp [htransform]
  · simp [htransform]

theorem rejected (h : Counted s left) (htransform : j.isTransform = true) :
    Counted ((s.addExecuted j.pass).addFailure j.pass) (left ++ [(j, false)]) := by
  apply h.counts (f := fun x =>
    { x with totallyExecuted := x.totallyExecuted + 1, failed := x.failed + 1 })
  · intro name
    rw [PassStatistic.addFailure, PassStatistic.addExecuted, PassStatistic.getStats_update,
      PassStatistic.getStats_update]
    split
    · rfl
    · rfl
  · simp [htransform]
  · simp [htransform]
  · simp [htransform]

theorem allAborted {jobs : List (Job T L)} (h : Counted s left) :
    Counted (jobs.foldl (fun s j => s.addAborted j.pass j.isTransform) s)
      (left ++ jobs.map fun j => (j, false)) := by
  induction jobs generalizing s left with
  | nil =>
    rw [List.map_nil, List.append_nil]
    exact h
  | cons j jobs ih =>
    have hrest := ih (h.aborted (j := j))
    rw [List.append_assoc] at hrest
    exact hrest

theorem committed {cand : SuccessCandidate L} (h : Counted s left)
    (hstat : TestManager.commitStatistics cand s = .ok s') : Counted s' left := by
  rw [TestManager.commitStatistics] at hstat
  split at hstat
  · rename_i fold _
    obtain ⟨s₁, hs₁, hstat⟩ := except_bind_ok.1 hstat
    have hfold := h.resized (PassStatistic.getStats_addCommittedSuccess hs₁)
    refine foldlM_invariant (P := fun s => Counted s left) ?_ hfold hstat
    intro s₂ e s₃ _ hs₂ hstep
    exact hs₂.resized (PassStatistic.getStats_addCommittedSuccess hstep)
  · split at hstat
    · exact h.resized (PassStatistic.getStats_addCommittedSuccess hstat)
    · cases hstat

end Counted

section
variable {m m' : TestManager T L}

theorem leaving_nil (h : m.jobs.map (·.order) ⊆ m'.jobs.map (·.order)) : leaving m m' = [] := by
  apply List.filter_eq_nil_iff.2
  intro j hj hleft
  exact of_decide_eq_true hleft (h (List.mem_map.2 ⟨j, hj, rfl⟩))

theorem leaving_all (h : m'.jobs = []) : leaving m m' = m.jobs := by
  apply List.filter_eq_self.2
  intro j hj
  simp [h]

theorem leaving_release (hordered : JobsOrdered m) (hj : j ∈ m.jobs)
    (hjobs : m'.jobs = m.jobs.filter (·.order ≠ j.order)) : leaving m m' = [j] := by
  have hleaving : leaving m m' = m.jobs.filter (·.order = j.order) := by
    apply List.filter_congr
    intro k hk
    rw [hjobs, decide_eq_decide]
    constructor
    · intro hgone
      by_contra hne
      exact hgone (List.mem_map.2 ⟨k, List.mem_filter.2 ⟨hk, decide_eq_true hne⟩, rfl⟩)
    · intro heq hthere
      obtain ⟨i, hi, horder⟩ := List.mem_map.1 hthere
      exact of_decide_eq_true (List.mem_filter.1 hi).2 (horder.trans heq)
  rw [hleaving]
  obtain ⟨before, after, hsplit⟩ := List.append_of_mem hj
  have hnodup : (m.jobs.map (·.order)).Nodup := hordered.increasing.imp Nat.ne_of_lt
  rw [hsplit, List.map_append, List.map_cons] at hnodup
  have hbefore : before.filter (·.order = j.order) = [] := by
    apply List.filter_eq_nil_iff.2
    intro k hk heq
    exact List.disjoint_of_nodup_append hnodup (List.mem_map.2 ⟨k, hk, rfl⟩)
      (List.mem_cons.2 (.inl (of_decide_eq_true heq)))
  have hafter : after.filter (·.order = j.order) = [] := by
    apply List.filter_eq_nil_iff.2
    intro k hk heq
    exact (List.nodup_cons.1 (List.nodup_append.1 hnodup).2.1).1
      (List.mem_map.2 ⟨k, hk, of_decide_eq_true heq⟩)
  rw [hsplit, List.filter_append, hbefore, List.filter_cons_of_pos (by simp), hafter]
  rfl

end

section
variable [DecidableEq T] {cfg : Config T} {m m' : TestManager T L} {e : Event T L}

theorem Move.counted (hmove : Move cfg m e m') (hphase : PhaseInv cfg m) (hordered : JobsOrdered m)
    (h : Counted m.passStatistic left) : Counted m'.passStatistic
      (left ++ (leaving m m').map fun j => (j, m.accepts cfg e j)) := by
  have hstays : m.jobs.map (·.order) ⊆ m'.jobs.map (·.order) → Counted m'.passStatistic left →
      Counted m'.passStatistic (left ++ (leaving m m').map fun j => (j, m.accepts cfg e j)) := by
    intro hsub hcounted
    rw [leaving_nil hsub, List.map_nil, List.append_nil]
    exact hcounted
  have hempty : m.phase = .testCases → m.jobs.map (·.order) ⊆ m'.jobs.map (·.order) := by
    intro hp
    rw [hphase.jobs (by rw [hp]; nofun)]
    exact List.nil_subset _
  have hput : ∀ f : Job T L → Job T L, (∀ j, (f j).order = j.order) →
      m.jobs.map (·.order) ⊆ (m.jobs.map f).map (·.order) := by
    intro f hf
    rw [List.map_map]
    intro n hn
    obtain ⟨j, hj, rfl⟩ := List.mem_map.1 hn
    exact List.mem_map.2 ⟨j, hj, hf j⟩
  have happend : ∀ j : Job T L, m.jobs.map (·.order) ⊆ (m.jobs ++ [j]).map (·.order) := by
    intro j
    rw [List.map_append]
    exact List.subset_append_left _ _
  cases hmove with
  | cacheHit hhit => exact hstays (hempty hhit.phase) h
  | openTestCase hp => exact hstays (hempty hp) h
  | init => exact hstays (happend _) h
  | restart => exact hstays (happend _) h
  | fold => exact hstays (happend _) h
  | transform => exact hstays (happend _) h
  | cancelLost =>
    refine hstays (hput _ fun j => ?_) h
    split
    · rfl
    · rfl
  | timedOut _ hj haccepts =>
    rw [leaving_release hordered hj rfl, List.map_singleton, haccepts]
    exact h.aborted
  | initialized _ hj _ hwork =>
    rw [leaving_release hordered hj rfl, List.map_singleton]
    exact h.initialized (by rw [Job.isTransform, hwork])
  | stopped _ hj hwork _ _ _ haccepts =>
    rw [leaving_release hordered hj rfl, List.map_singleton, haccepts]
    exact h.rejected (by rw [Job.isTransform, hwork])
  | ignored _ hj hwork _ haccepts =>
    rw [leaving_release hordered hj rfl, List.map_singleton, haccepts]
    exact h.rejected (by rw [Job.isTransform, hwork])
  | accepted _ hj hwork _ _ _ _ _ haccepts =>
    rw [leaving_release hordered hj rfl, List.map_singleton, haccepts]
    exact h.succeeded (by rw [Job.isTransform, hwork])
  | endBatch hp =>
    have haccepts : (fun j => (j, m.accepts cfg e j)) = fun j => (j, false) := by
      funext j
      unfold TestManager.accepts
      split
      · rename_i hcompleting _ _
        cases hp.symm.trans hcompleting
      · rfl
    rw [leaving_all rfl, haccepts]
    exact h.allAborted
  | commit _ _ _ hstat =>
    exact hstays (List.Subset.refl _) (h.committed hstat)
  | work _ _ hstep =>
    refine hstays (hput _ fun k => ?_) h
    split
    · rename_i hk
      rw [hstep.frame.1, hk]
    · rfl
  | initRun =>
    refine hstays (hput _ fun k => ?_) h
    split
    · rename_i hk
      exact hk.symm
    · rfl
  | _ => exact hstays (List.Subset.refl _) h

/-- The jobs that leave are those that are there no more, and a new one gets the next number. -/
theorem Move.numbered (hmove : Move cfg m e m') (hordered : JobsOrdered m)
    {gone : List Nat} (h : (gone ++ m.jobs.map (·.order)).Perm (List.range' 1 (m.order - 1))) (hpos : 0 < m.order) :
    ((gone ++ (leaving m m').map (·.order)) ++ m'.jobs.map (·.order)).Perm
      (List.range' 1 (m'.order - 1)) ∧ 0 < m'.order := by
  have hleaving : (leaving m m').map (·.order) =
      (m.jobs.map (·.order)).filter (· ∉ m'.jobs.map (·.order)) := by
    rw [List.filter_map]
    rfl
  rw [hleaving]
  rcases hmove.orders with ⟨hsub, horder⟩ | ⟨heq, horder⟩
  · have hnodup : (m.jobs.map (·.order)).Nodup := hordered.increasing.imp Nat.ne_of_lt
    rw [horder, List.append_assoc]
    refine ⟨(List.Perm.append_left gone ?_).trans h, hpos⟩
    have hdisjoint : List.Disjoint ((m.jobs.map (·.order)).filter (· ∉ m'.jobs.map (·.order)))
        (m'.jobs.map (·.order)) := fun n hn hn' => of_decide_eq_true (List.mem_filter.1 hn).2 hn'
    have hboth := (hnodup.filter (p := (· ∉ m'.jobs.map (·.order)))).append (hnodup.sublist hsub)
      hdisjoint
    apply (List.perm_ext_iff_of_nodup hboth hnodup).2
    intro n
    rw [List.mem_append, List.mem_filter, decide_eq_true_eq]
    by_cases hn : n ∈ m'.jobs.map (·.order)
    · exact ⟨fun _ => hsub.subset hn, fun _ => .inr hn⟩
    · exact ⟨fun h => h.elim And.left fun h => absurd h hn, fun h => .inl ⟨h, hn⟩⟩
  · have hnone : (m.jobs.map (·.order)).filter (· ∉ m'.jobs.map (·.order)) = [] := by
      apply List.filter_eq_nil_iff.2
      intro n hn hgone
      rw [heq] at hgone
      exact of_decide_eq_true hgone (List.mem_append_left _ hn)
    have hsucc : m'.order - 1 = m.order - 1 + 1 := by omega
    rw [hnone, heq, horder, List.append_nil, ← List.append_assoc, ← horder, hsucc,
      List.range'_1_concat]
    have hnext : 1 + (m.order - 1) = m.order := by omega
    rw [hnext]
    exact ⟨h.append_right [m.order], by omega⟩

/-- From a state on in which the statistics are those of the jobs that have left. -/
theorem counted_of_runFrom (h : runFrom (step cfg) m es = some m') (halive : m'.Alive)
    (hphase : PhaseInv cfg m) (hordered : JobsOrdered m) (hcounted : Counted m.passStatistic left)
    (hnumbered : (left.map (·.1.order) ++ m.jobs.map (·.order)).Perm (List.range' 1 (m.order - 1)))
    (hpos : 0 < m.order) : Counted m'.passStatistic (left ++ departed cfg m es) ∧
      ((left ++ departed cfg m es).map (·.1.order) ++ m'.jobs.map (·.order)).Perm
        (List.range' 1 (m'.order - 1)) := by
  induction es generalizing m left with
  | nil =>
    cases h
    rw [departed, List.append_nil]
    exact ⟨hcounted, hnumbered⟩
  | cons e es ih =>
    obtain ⟨u, hu, hrun⟩ := Option.bind_eq_some_iff.1 h
    have hmove : Move cfg m e u := step_move hu (alive_of_run (runFrom_reach hrun) halive)
    obtain ⟨hnumbered', hpos'⟩ := hmove.numbered hordered hnumbered hpos
    have hrest := ih hrun (hphase.move hmove) (hordered.move hmove)
      (hmove.counted hphase hordered hcounted) (by simpa [Function.comp_def] using hnumbered') hpos'
    rw [departed, hu, ← List.append_assoc]
    exact hrest

/-- Every job that was scheduled is either among the jobs or has left once. For each visible name of a
pass, and for folding, the statistics count each transform job that has left: as worked if its result
was accepted, and as failed otherwise. -/
theorem jobs_counted_once (disk : T → TestCase) (t : T) (startWithPass : Option Str)
    (crashDirs : Nat) : ∀ es (m : TestManager T L),
      runFrom (step cfg) (.start disk t startWithPass crashDirs) es = some m → m.Alive →
        let left := departed cfg (.start disk t startWithPass crashDirs : TestManager T L) es
        (left.map (·.1.order) ++ m.jobs.map (·.order)).Perm (List.range' 1 (m.order - 1)) ∧
        ∀ name, let s := m.passStatistic.getStats name
          s.totallyExecuted = (left.countP fun e => e.1.countsFor name) ∧
          s.worked = (left.countP fun e => e.1.countsFor name && e.2) ∧
          s.failed = (left.countP fun e => e.1.countsFor name && !e.2) ∧
          s.worked + s.failed = s.totallyExecuted := by
  intro es m hrun halive left
  have hordered : JobsOrdered (.start disk t startWithPass crashDirs : TestManager T L) :=
    ⟨fun n hn => absurd hn List.not_mem_nil, List.Pairwise.nil⟩
  have hnone : Counted (T := T) (L := L) {} [] := by
    constructor
    · intro name
      cases name with
      | none => rfl
      | some name => rfl
    · intro name
      cases name with
      | none => rfl
      | some name => rfl
    · intro name
      cases name with
      | none => rfl
      | some name => rfl
  obtain ⟨hcounted, hnumbered⟩ := counted_of_runFrom hrun halive .start hordered hnone
    (List.Perm.refl _) Nat.one_pos
  refine ⟨hnumbered, fun name => ?_⟩
  exact ⟨hcounted.executed name, hcounted.worked name, hcounted.failed name, hcounted.total name⟩

end

/-- In the first batch of the trimming pass its initialization is not counted, and its attempt works. -/
theorem jobs_counted_once_trim :
    (afterFirstBatch.passStatistic.getStats (some "TrimPass".toList)).worked = 1 ∧
      (departed nonemptyConfig threeBytes firstBatch).map (fun e => (e.1.order, e.2)) =
        [(1, false), (2, true)] := by
  have hcounted := jobs_counted_once (fun _ => .file [1, 2, 3]) () none 0 firstBatch afterFirstBatch
    firstBatch_run (by decide)
  obtain ⟨_, hworked, _⟩ := hcounted.2 (some "TrimPass".toList)
  exact ⟨hworked.trans (by decide), by decide⟩

end Cvise
