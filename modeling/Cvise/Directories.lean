import Cvise.ContextSteps

namespace Cvise
set_option autoImplicit true

variable {T L : Type}

section
variable [DecidableEq T] {cfg : Config T} {m m' : TestManager T L} {e : Event T L}

/-- The orders of the jobs, which only a new job adds to. -/
theorem Move.orders (hmove : Move cfg m e m') :
    (m'.jobs.map (·.order)).Sublist (m.jobs.map (·.order)) ∧ m'.order = m.order ∨
      m'.jobs.map (·.order) = m.jobs.map (·.order) ++ [m.order] ∧ m'.order = m.order + 1 := by
  have hmap : ∀ f : Job T L → Job T L, (∀ j, (f j).order = j.order) →
      ((m.jobs.map f).map (·.order)).Sublist (m.jobs.map (·.order)) := by
    intro f hf
    have heq : (m.jobs.map f).map (·.order) = m.jobs.map (·.order) := by
      rw [List.map_map]
      exact List.map_congr_left fun j _ => hf j
    exact heq ▸ List.Sublist.refl _
  have hput : ∀ {j j' : Job T L}, j'.order = j.order → ∀ k : Job T L,
      (if k.order = j.order then j' else k).order = k.order := by
    intro j j' hj k
    split
    · rename_i hk
      rw [hj, hk]
    · rfl
  cases hmove with
  | cacheHit => exact .inl ⟨List.nil_sublist _, rfl⟩
  | openTestCase => exact .inl ⟨List.nil_sublist _, rfl⟩
  | endBatch => exact .inl ⟨List.nil_sublist _, rfl⟩
  | init => exact .inr ⟨List.map_append, rfl⟩
  | restart => exact .inr ⟨List.map_append, rfl⟩
  | fold => exact .inr ⟨List.map_append, rfl⟩
  | transform => exact .inr ⟨List.map_append, rfl⟩
  | timedOut => exact .inl ⟨List.filter_sublist.map _, rfl⟩
  | initialized => exact .inl ⟨List.filter_sublist.map _, rfl⟩
  | stopped => exact .inl ⟨List.filter_sublist.map _, rfl⟩
  | ignored => exact .inl ⟨List.filter_sublist.map _, rfl⟩
  | accepted => exact .inl ⟨List.filter_sublist.map _, rfl⟩
  | cancelLost =>
    refine .inl ⟨hmap _ fun j => ?_, rfl⟩
    split
    · rfl
    · rfl
  | work _ _ hstep => exact .inl ⟨hmap _ (hput hstep.frame.1), rfl⟩
  | initRun => exact .inl ⟨hmap _ (hput rfl), rfl⟩
  | _ => exact .inl ⟨List.Sublist.refl _, rfl⟩

/-- Jobs are numbered in the order in which they were scheduled. -/
structure JobsOrdered (m : TestManager T L) : Prop where
  below : ∀ n ∈ m.jobs.map (·.order), n < m.order
  increasing : (m.jobs.map (·.order)).Pairwise (· < ·)

namespace JobsOrdered

omit [DecidableEq T] in
theorem inj (h : JobsOrdered m) (hj : j ∈ m.jobs) (hk : k ∈ m.jobs) (horder : j.order = k.order) :
    j = k := by
  have hnodup : (m.jobs.map (·.order)).Nodup := h.increasing.imp Nat.ne_of_lt
  exact List.inj_on_of_nodup_map hnodup hj hk horder

theorem move (h : JobsOrdered m) (hmove : Move cfg m e m') : JobsOrdered m' := by
  rcases hmove.orders with ⟨hsub, horder⟩ | ⟨heq, horder⟩
  · exact ⟨fun n hn => horder ▸ h.below n (hsub.subset hn), h.increasing.sublist hsub⟩
  · apply JobsOrdered.mk
    · intro n hn
      rw [heq] at hn
      rcases List.mem_append.1 hn with hn | hn
      · have hlt := h.below n hn
        omega
      · rw [List.mem_singleton.1 hn]
        omega
    · rw [heq, List.pairwise_append]
      refine ⟨h.increasing, List.pairwise_singleton .., fun n hn k hk => ?_⟩
      rw [List.mem_singleton.1 hk]
      exact h.below n hn

theorem of_run (h : Run (step cfg) C (TestManager.start disk t name n : TestManager T L) m)
    (halive : m.Alive) : JobsOrdered m := by
  apply move_invariant h halive
  · exact ⟨fun n hn => absurd hn List.not_mem_nil, List.Pairwise.nil⟩
  · intro u e v _ _ hinv _ hmove
    exact hinv.move hmove

end JobsOrdered

end

/-- Who deletes a directory: a pass its root, and a job its folder. -/
inductive Owner where
  | pass (i : Nat)
  | job (order : Nat)

def Owns (m : TestManager T L) : Owner → DirName → Prop
  | .pass i, d => ∃ c, m.passContexts[i]? = some c ∧ c.temporaryRoot = some d
  | .job order, d => ∃ j ∈ m.jobs, j.order = order ∧ j.temporaryFolder = some d

/-- The directories in use exist, and no two passes or jobs have the same. -/
structure DirsOwned (m : TestManager T L) : Prop where
  live : ∀ o d, Owns m o d → m.dirs d ≠ none
  unique : ∀ o o' d, Owns m o d → Owns m o' d → o = o'
  tmpDir : ∀ j ∈ m.jobs, ∀ env, j.work = .init env → j.temporaryFolder = some env.tmpDir

inductive OwnsStep (m m' : TestManager T L) (o : Owner) (d : DirName) : Prop
  | kept (h : Owns m o d)
  | new (ho : o = .job m.order) (hd : m.dirs d = none) (hlive : m'.dirs d ≠ none)
  | moved {j : Job T L} {c : PassContext L} (hj : j ∈ m.jobs) (hd : j.temporaryFolder = some d)
      (ho : o = .pass i) (hi : j.passId = some i) (hc : m.passContexts[i]? = some c)
      (hjobs : m'.jobs = m.jobs.filter (·.order ≠ j.order))
      (hdirs : m'.dirs = (m.deleteDirs c.temporaryRoot.toList).dirs)

section
variable {m m' : TestManager T L} {j j' : Job T L} {c c' : PassContext L}

theorem DirsOwned.folder_unique (h : DirsOwned m) (hj : j ∈ m.jobs) (hj' : j' ∈ m.jobs)
    (hd : j.temporaryFolder = some d) (hd' : j'.temporaryFolder = some d) : j.order = j'.order := by
  exact Owner.job.inj (h.unique (.job _) (.job _) d ⟨j, hj, rfl, hd⟩ ⟨j', hj', rfl, hd'⟩)

theorem DirsOwned.apart {i : Nat} (h : DirsOwned m) (hc : m.passContexts[i]? = some c)
    (hroot : c.temporaryRoot = some d) (hj : j ∈ m.jobs) : j.temporaryFolder ≠ some d := by
  intro hd
  cases h.unique (.pass i) (.job _) d ⟨c, hc, hroot⟩ ⟨j, hj, rfl, hd⟩

theorem NewJob.order (h : NewJob m j) : j.order = m.order := by
  cases h with
  | _ => rfl

theorem PassContext.Evolves.root (h : c.Evolves m m' i c') (hne : c'.temporaryRoot ≠ c.temporaryRoot) :
    ∃ j env, j ∈ m.jobs ∧ j.work = .init env ∧ j.passId = some i ∧
      c'.temporaryRoot = j.temporaryFolder ∧
      m'.jobs = m.jobs.filter (·.order ≠ j.order) ∧
        m'.dirs = (m.deleteDirs c.temporaryRoot.toList).dirs := by
  cases h with
  | keeps h => exact absurd h.root hne
  | initialized hj _ hwork hi _ hjobs hdirs => exact ⟨_, _, hj, hwork, hi, rfl, hjobs, hdirs⟩
  | _ => exact absurd rfl hne

end

section
variable [DecidableEq T] {cfg : Config T} {m m' : TestManager T L} {e : Event T L}

theorem Move.owns (hmove : Move cfg m e m') (h : Owns m' o d) : OwnsStep m m' o d := by
  cases o with
  | pass i =>
    obtain ⟨c', hc', hroot⟩ := h
    by_cases hk : m.phase.kind = .outside
    · cases hmove.outside hk with
      | same heq => exact .kept ⟨c', heq ▸ hc', hroot⟩
      | opened hcontexts =>
        obtain ⟨p, b, rfl⟩ := hcontexts c' (List.mem_of_getElem? hc')
        cases hroot
      | closed heq =>
        obtain ⟨c, _, rfl⟩ := List.mem_map.1 (heq ▸ List.mem_of_getElem? hc')
        cases hroot
    · obtain ⟨c, hc, hevolves⟩ := hmove.evolves_from hk hc'
      by_cases heq : c'.temporaryRoot = c.temporaryRoot
      · exact .kept ⟨c, hc, heq ▸ hroot⟩
      · obtain ⟨j, env, hj, _, hi, hfolder, hjobs, hdirs⟩ := hevolves.root heq
        exact .moved hj (hfolder.symm.trans hroot) rfl hi hc hjobs hdirs
  | job order =>
    obtain ⟨j', hj', rfl, hfolder⟩ := h
    cases hmove.mem_jobs hj' with
    | kept hj => exact .kept ⟨j', hj, rfl, hfolder⟩
    | step hj _ hstep =>
      obtain ⟨horder, _, heq⟩ := hstep.frame
      exact .kept ⟨_, hj, horder.symm, heq ▸ hfolder⟩
    | initRun hj _ _ _ heq _ =>
      subst heq
      exact .kept ⟨_, hj, rfl, hfolder⟩
    | scheduled hnew _ hfolder' hd hdirs =>
      cases hfolder.symm.trans hfolder'
      refine .new (congrArg Owner.job hnew.order) hd ?_
      rw [hdirs]
      simp [TestManager.createDir]

/-- A directory that stays in use is not deleted; only a job that initializes a pass fills its own. -/
theorem Move.dirs_owned (hmove : Move cfg m e m') (howned : DirsOwned m) (h : Owns m o d)
    (h' : Owns m' o d) : m'.dirs d = m.dirs d ∨
      ∃ j ∈ m.jobs, j.future = .pending ∧ o = .job j.order ∧ m'.dirs d ≠ none := by
  have hcreate : ∀ {d'}, m.dirs d' = none → (m.createDir d').dirs d = m.dirs d := by
    intro d' hd'
    apply if_neg
    intro heq
    exact howned.live o d h (heq ▸ hd')
  have hdelete : ∀ {ds}, (∀ d' ∈ ds, ∃ o', Owns m o' d' ∧ ¬ Owns m' o' d') →
      (m.deleteDirs ds).dirs d = m.dirs d := by
    intro ds hds
    apply if_neg
    intro hd
    obtain ⟨o', ho', hgone⟩ := hds d hd
    exact hgone (howned.unique o o' d h ho' ▸ h')
  have hrelease : ∀ {j : Job T L}, j ∈ m.jobs → m'.jobs = m.jobs.filter (·.order ≠ j.order) →
      (m.deleteDirs j.temporaryFolder.toList).dirs d = m.dirs d := by
    intro j hj hjobs
    apply hdelete
    intro d' hd'
    apply Exists.intro (.job j.order)
    apply And.intro ⟨j, hj, rfl, Option.mem_toList.1 hd'⟩
    rintro ⟨k, hk, horder, _⟩
    rw [hjobs, List.mem_filter, decide_eq_true_eq] at hk
    exact hk.2 horder
  cases hmove with
  | init _ _ _ hd => exact .inl (hcreate hd)
  | restart _ _ _ _ _ _ hd => exact .inl (hcreate hd)
  | fold _ _ _ hd => exact .inl (hcreate hd)
  | transform _ _ _ _ _ _ hd => exact .inl (hcreate hd)
  | timedOut _ hj => exact .inl (hrelease hj rfl)
  | stopped _ hj => exact .inl (hrelease hj rfl)
  | ignored _ hj => exact .inl (hrelease hj rfl)
  | accepted _ hj => exact .inl (hrelease hj rfl)
  | initialized _ hj _ hwork hi hc =>
    apply Or.inl
    apply hdelete
    intro d' hd'
    refine ⟨.pass _, ⟨_, hc, Option.mem_toList.1 hd'⟩, ?_⟩
    rintro ⟨c', hc', hroot⟩
    rw [List.getElem?_set_self (List.getElem?_eq_some_iff.1 hc).1] at hc'
    cases hc'
    exact howned.apart hc (Option.mem_toList.1 hd') hj hroot
  | endBatch =>
    apply Or.inl
    apply hdelete
    intro d' hd'
    obtain ⟨j, hj, hfolder⟩ := List.mem_filterMap.1 hd'
    refine ⟨.job j.order, ⟨j, hj, rfl, hfolder⟩, ?_⟩
    rintro ⟨k, hk, _⟩
    exact absurd hk List.not_mem_nil
  | close =>
    apply Or.inl
    apply hdelete
    intro d' hd'
    obtain ⟨c, hc, hroot⟩ := List.mem_filterMap.1 hd'
    obtain ⟨i, hi⟩ := List.mem_iff_getElem?.1 hc
    refine ⟨.pass i, ⟨c, hi, hroot⟩, ?_⟩
    rintro ⟨c', hc', hroot'⟩
    obtain ⟨c₀, _, rfl⟩ := List.mem_map.1 (List.mem_of_getElem? hc')
    cases hroot'
  | initRun hj hfuture hwork =>
    rename_i j env _ _ _ _
    by_cases hd : d = env.tmpDir
    · have hown : Owns m (.job j.order) d := ⟨j, hj, rfl, hd ▸ howned.tmpDir j hj env hwork⟩
      exact .inr ⟨j, hj, hfuture, howned.unique _ _ d h hown, by simp [hd]⟩
    · exact .inl (if_neg hd)
  | _ => exact .inl rfl

namespace DirsOwned

omit [DecidableEq T] in
theorem start : DirsOwned (TestManager.start disk t name n : TestManager T L) := by
  have hnone : ∀ o d, ¬ Owns (TestManager.start disk t name n : TestManager T L) o d := by
    intro o d h
    cases o with
    | pass i =>
      obtain ⟨c, hc, _⟩ := h
      cases hc
    | job order =>
      obtain ⟨j, hj, _⟩ := h
      cases hj
  exact ⟨fun o d h => (hnone o d h).elim, fun o o' d h => (hnone o d h).elim,
    fun j hj => absurd hj List.not_mem_nil⟩

theorem move_live (h : DirsOwned m) (hmove : Move cfg m e m') (ho : Owns m' o d) :
    m'.dirs d ≠ none := by
  cases hmove.owns ho with
  | kept hold =>
    rcases hmove.dirs_owned h hold ho with heq | ⟨_, _, _, _, hlive⟩
    · exact heq ▸ h.live o d hold
    · exact hlive
  | new _ _ hlive => exact hlive
  | @moved i j c hj hd _ _ hc hjobs hdirs =>
    have hne : d ∉ c.temporaryRoot.toList := fun hroot =>
      h.apart hc (Option.mem_toList.1 hroot) hj hd
    rw [hdirs]
    simp only [TestManager.deleteDirs, if_neg hne]
    exact h.live (.job j.order) d ⟨j, hj, rfl, hd⟩

theorem move_unique (h : DirsOwned m) (hjobs : JobsOrdered m) (hmove : Move cfg m e m')
    (ho : Owns m' o d) (ho' : Owns m' o' d) : o = o' := by
  have hgone : ∀ {o j}, Owns m o d → Owns m' o d → j ∈ m.jobs → j.temporaryFolder = some d →
      m'.jobs = m.jobs.filter (·.order ≠ j.order) → False := by
    intro o j hold hnew hj hd hfilter
    cases h.unique o (.job j.order) d hold ⟨j, hj, rfl, hd⟩
    obtain ⟨k, hk, horder, _⟩ := hnew
    rw [hfilter, List.mem_filter, decide_eq_true_eq] at hk
    exact hk.2 horder
  have hlive : ∀ {j}, j ∈ m.jobs → j.temporaryFolder = some d → m.dirs d ≠ none :=
    fun {j} hj hd => h.live (.job j.order) d ⟨j, hj, rfl, hd⟩
  cases hmove.owns ho with
  | kept hold =>
    cases hmove.owns ho' with
    | kept hold' => exact h.unique o o' d hold hold'
    | new _ hd => exact absurd hd (h.live o d hold)
    | moved hj hd _ _ _ hfilter => exact (hgone hold ho hj hd hfilter).elim
  | new heq hd =>
    cases hmove.owns ho' with
    | kept hold' => exact absurd hd (h.live o' d hold')
    | new heq' _ => rw [heq, heq']
    | moved hj hd' => exact absurd hd (hlive hj hd')
  | moved hj hd heq hi _ hfilter =>
    cases hmove.owns ho' with
    | kept hold' => exact (hgone hold' ho' hj hd hfilter).elim
    | new _ hd' => exact absurd hd' (hlive hj hd)
    | moved hj' hd' heq' hi' =>
      cases hjobs.inj hj hj' (h.folder_unique hj hj' hd hd')
      rw [heq, heq', Option.some.inj (hi.symm.trans hi')]

theorem move (h : DirsOwned m) (hjobs : JobsOrdered m) (hmove : Move cfg m e m') :
    DirsOwned m' where
  live o d ho := h.move_live hmove ho
  unique o o' d ho ho' := h.move_unique hjobs hmove ho ho'
  tmpDir j' hj' env hwork := by
    cases hmove.mem_jobs hj' with
    | kept hj => exact h.tmpDir j' hj env hwork
    | step hj _ hstep =>
      cases hstep with
      | ended => exact h.tmpDir _ hj env hwork
      | _ => cases hwork
    | @initRun _ env' _ _ _ hj _ hwork' _ heq _ =>
      subst heq
      cases hwork
      exact h.tmpDir _ hj env' hwork'
    | scheduled hnew =>
      cases hnew with
      | init =>
        cases hwork
        rfl
      | _ => cases hwork

theorem of_run (h : Run (step cfg) C (TestManager.start disk t name n : TestManager T L) m)
    (halive : m.Alive) : DirsOwned m :=
  move_invariant h halive .start fun _ _ _ hreach hu hinv _ =>
    hinv.move (JobsOrdered.of_run hreach hu)

end DirsOwned

end

end Cvise
