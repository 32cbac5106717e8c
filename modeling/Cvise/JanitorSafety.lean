import Cvise.TmpDirManager

namespace Cvise
set_option autoImplicit true

namespace TmpDisk

variable {disk : TmpDisk} {p q : TmpPath} {k : EntryKind}

theorem has_iff : disk.has p = true ↔ ∃ k, (p, k) ∈ disk := by
  rw [has, List.any_eq_true]
  constructor
  · intro h
    obtain ⟨e, he, hp⟩ := h
    rw [decide_eq_true_eq] at hp
    subst hp
    exact ⟨e.2, he⟩
  · intro h
    obtain ⟨k, hk⟩ := h
    exact ⟨_, hk, decide_eq_true rfl⟩

theorem mem_remove : (q, k) ∈ disk.remove p ↔ (q, k) ∈ disk ∧ q ≠ p := by
  rw [remove, List.mem_filter, decide_eq_true_eq]

theorem mem_names : d ∈ disk.names ↔ disk.has ⟨d, []⟩ = true := by
  rw [has_iff, names, List.mem_map]
  constructor
  · intro h
    obtain ⟨e, he, hd⟩ := h
    obtain ⟨hmem, hbelow⟩ := List.mem_filter.1 he
    subst hd
    rw [← List.isEmpty_iff.1 hbelow]
    exact ⟨e.2, hmem⟩
  · intro h
    obtain ⟨k, hk⟩ := h
    exact ⟨_, List.mem_filter.2 ⟨hk, rfl⟩, rfl⟩

theorem has_append_of_has (h : disk.has p = true) (added : TmpDisk) :
    TmpDisk.has (disk ++ added) p = true := by
  obtain ⟨k, hk⟩ := has_iff.1 h
  exact has_iff.2 ⟨k, List.mem_append_left _ hk⟩

/-- All that is not `dir` or below it is the same. -/
def SameOutside (dir : Str) (disk disk' : TmpDisk) : Prop :=
  ∀ p k, p.name ≠ dir → ((p, k) ∈ disk' ↔ (p, k) ∈ disk)

theorem SameOutside.refl (dir : Str) (disk : TmpDisk) : SameOutside dir disk disk :=
  fun _ _ _ => .rfl

theorem SameOutside.has (h : SameOutside dir disk disk') (hne : p.name ≠ dir)
    (hp : disk.has p = true) : disk'.has p = true := by
  obtain ⟨k, hk⟩ := has_iff.1 hp
  exact has_iff.2 ⟨k, (h p k hne).2 hk⟩

theorem sameOutside_remove (disk : TmpDisk) (p : TmpPath) :
    SameOutside p.name disk (disk.remove p) := by
  intro q k hne
  rw [mem_remove]
  exact and_iff_left fun heq => hne (congrArg TmpPath.name heq)

/-- A deletion of `rmtree` leaves the other entries of the root, and the directory to its end. -/
theorem rmtreeStep_spec (h : rmtreeStep disk dir r = some (disk', ended)) :
    SameOutside dir disk disk' ∧
      (ended = false → disk.has ⟨dir, []⟩ = true → disk'.has ⟨dir, []⟩ = true) := by
  cases r with
  | below parts succeeds =>
    cases succeeds with
    | false =>
      cases h
      exact ⟨.refl _ _, fun _ hd => hd⟩
    | true =>
      rw [rmtreeStep] at h
      split at h
      · rename_i hguard
        cases h
        apply And.intro (sameOutside_remove disk ⟨dir, parts⟩)
        intro _ hd
        obtain ⟨k, hk⟩ := has_iff.1 hd
        refine has_iff.2 ⟨k, mem_remove.2 ⟨hk, fun heq => ?_⟩⟩
        exact hguard.1 (congrArg TmpPath.below heq).symm
      · cases h
  | root succeeds =>
    cases succeeds with
    | false =>
      cases h
      exact ⟨.refl _ _, fun _ hd => hd⟩
    | true =>
      rw [rmtreeStep] at h
      split at h
      · cases h
        exact ⟨sameOutside_remove disk ⟨dir, []⟩, fun hended => by cases hended⟩
      · cases h

end TmpDisk

namespace MainPhase

/-- The directory that a call has registered and not returned, or is about to forget. -/
def held : MainPhase → Option Str
  | .making _ _ dir | .unregistering _ _ dir | .deleting dir | .forgetting dir => some dir
  | _ => none

def candidate : MainPhase → Option Str
  | .making _ _ dir | .unregistering _ _ dir => some dir
  | _ => none

end MainPhase

namespace JanitorPhase

/-- The path that is being deleted, and those after it. -/
def current : JanitorPhase → Option (Str × List Str)
  | .unlinking path toDelete | .removing path toDelete => some (path, toDelete)
  | _ => none

/-- The paths of the snapshot that are not yet deleted or given up. -/
def pending : JanitorPhase → List Str
  | .sweeping toDelete => toDelete
  | .unlinking path toDelete | .removing path toDelete => path :: toDelete
  | _ => []

theorem pending_of_current {j : JanitorPhase} (h : j.current = some (path, toDelete)) :
    j.pending = path :: toDelete := by
  cases j with
  | unlinking => cases h; rfl
  | removing => cases h; rfl
  | _ => cases h

end JanitorPhase

namespace TmpDirManager

variable {t t' : TmpDirManager}

/-- The steps of the janitor, by what becomes of the disk and of the paths it has to delete. -/
inductive JanitorMove (t : TmpDirManager) : TmpDisk → JanitorPhase → Prop
  | snapshot : JanitorMove t t.disk (.sweeping (t.disk.names.filter (· ∉ t.dirs)))
  | take {j : JanitorPhase} (h : t.janitor = .sweeping toDelete) (hpath : path ∈ toDelete)
      (hj : j.current = some (path, toDelete.filter (· ≠ path))) : JanitorMove t t.disk j
  | working {d : TmpDisk} (h : t.janitor.current = some (path, toDelete))
      (hd : TmpDisk.SameOutside path t.disk d)
      (hpath : t.disk.has ⟨path, []⟩ = true → d.has ⟨path, []⟩ = true) : JanitorMove t d t.janitor
  | done {d : TmpDisk} (h : t.janitor.current = some (path, toDelete))
      (hd : TmpDisk.SameOutside path t.disk d) : JanitorMove t d (.sweeping toDelete)
  | rests {j : JanitorPhase} (hj : j.pending = []) (hcurrent : j.current = none) :
      JanitorMove t t.disk j

theorem janitorStep_move (h : t.janitorStep e = some t') :
    ∃ d j, t' = { t with disk := d, janitor := j } ∧ JanitorMove t d j := by
  unfold janitorStep at h
  split at h
  · cases h
    exact ⟨_, _, rfl, .snapshot⟩
  · rename_i toDelete path hphase
    split at h
    · rename_i hpath
      cases h
      refine ⟨_, _, rfl, .take hphase hpath ?_⟩
      split
      · rfl
      · rfl
    · cases h
  · rename_i path toDelete succeeds hphase
    have hcurrent : t.janitor.current = some (path, toDelete) := congrArg _ hphase
    split at h
    · cases h
      exact ⟨_, _, rfl, .done hcurrent (TmpDisk.sameOutside_remove t.disk ⟨path, []⟩)⟩
    · cases h
      exact ⟨_, _, rfl, .rests rfl rfl⟩
  · rename_i path toDelete r hphase
    have hcurrent : t.janitor.current = some (path, toDelete) := congrArg _ hphase
    obtain ⟨⟨d, ended⟩, hr, heq⟩ := Option.map_eq_some_iff.1 h
    obtain ⟨hd, hpath⟩ := TmpDisk.rmtreeStep_spec hr
    subst heq
    cases ended with
    | false => exact ⟨_, _, congrArg _ hphase.symm, .working hcurrent hd (hpath rfl)⟩
    | true => exact ⟨_, _, rfl, .done hcurrent hd⟩
  · cases h
    exact ⟨_, _, rfl, .rests rfl rfl⟩
  · cases h
    exact ⟨_, _, rfl, .rests rfl rfl⟩
  · cases h

/-- The steps of the main thread, by what they do to `_dirs`, to the disk and to what is live. -/
inductive MainMove (t : TmpDirManager) : TmpDirManager → Prop
  | goes {p : MainPhase} (hheld : ∀ d, p.held = some d → t.main.held = some d)
      (hcandidate : ∀ d, t.main.candidate = some d → p.candidate = some d ∨
        t.disk.has ⟨d, []⟩ = false) : MainMove t { t with main := p }
  | registers (h : t.main.held = none) (hnew : c ∉ t.dirs) :
      MainMove t { t with dirs := t.dirs ++ [c], main := .making pre attempt c }
  | makes (h : t.main.held = some c) (hnew : t.disk.has ⟨c, []⟩ = false) :
      MainMove t { t with
        disk := t.disk ++ [(⟨c, []⟩, .dir)], live := t.live ++ [c], main := .idle }
  | unregisters {p : MainPhase} (h : t.main.held = some c) (hp : p.held = none) :
      MainMove t { t with dirs := t.dirs.filter (· ≠ c), main := p }
  | passes {p : MainPhase} (h : t.main = .idle) (hdir : dir ∈ t.dirs)
      (hp : p = .idle ∨ p = .deleting dir) :
      MainMove t { t with live := t.live.filter (· ≠ dir), main := p }
  | deletes {p : MainPhase} (h : t.main = .deleting dir) (hd : TmpDisk.SameOutside dir t.disk d)
      (hp : p = .deleting dir ∨ p = .forgetting dir) : MainMove t { t with disk := d, main := p }

theorem mainStep_move (h : t.mainStep e = some t') : MainMove t t' := by
  unfold mainStep at h
  have hleaves : ∀ p : MainPhase, p.held = none → t.main.candidate = none →
      MainMove t { t with main := p } := by
    intro p hp hnone
    refine .goes (fun d hd => ?_) (fun d hd => ?_)
    · cases hp.symm.trans hd
    · cases hnone.symm.trans hd
  split at h
  · rename_i hphase
    cases h
    exact hleaves _ rfl (congrArg _ hphase)
  · rename_i hphase
    split at h
    · split at h
      · cases h
        exact hleaves _ rfl (congrArg _ hphase)
      · cases h
        exact hleaves _ rfl (congrArg _ hphase)
    · cases h
  · rename_i hphase
    split at h
    · cases h
      exact hleaves _ rfl (congrArg _ hphase)
    · cases h
  · rename_i hphase
    split at h
    · cases h
    · cases h
      exact hleaves _ rfl (congrArg _ hphase)
  · rename_i hphase
    split at h
    · cases h
      exact hleaves _ rfl (congrArg _ hphase)
    · rename_i hnew
      cases h
      exact .registers (congrArg _ hphase) hnew
  · rename_i pre attempt c succeeds hphase
    split at h
    · cases h
      refine .goes (fun d hd => ?_) (fun d hd => .inl ?_)
      · rw [hphase]
        exact hd
      · rw [hphase] at hd
        exact hd
    · rename_i hnew
      split at h
      · cases h
        exact .makes (congrArg _ hphase) (Bool.not_eq_true _ ▸ hnew)
      · cases h
        refine .goes (fun d hd => by cases hd) (fun d hd => .inr ?_)
        rw [hphase] at hd
        cases hd
        exact Bool.not_eq_true _ ▸ hnew
  · rename_i hphase
    cases h
    exact .unregisters (congrArg _ hphase) rfl
  · rename_i dir hphase
    split at h
    · rename_i hdir
      split at h
      · cases h
        have hmove := MainMove.passes hphase hdir (.inl rfl)
        rw [← hphase] at hmove
        exact hmove
      · cases h
        exact .passes hphase hdir (.inr rfl)
    · cases h
      have hmove := hleaves t.main (congrArg _ hphase) (congrArg _ hphase)
      exact hmove
  · rename_i dir r hphase
    obtain ⟨⟨d, ended⟩, hr, heq⟩ := Option.map_eq_some_iff.1 h
    subst heq
    apply MainMove.deletes hphase (TmpDisk.rmtreeStep_spec hr).1
    cases ended with
    | false => exact .inl rfl
    | true => exact .inr rfl
  · rename_i hphase
    cases h
    exact .unregisters (congrArg _ hphase) rfl
  · cases h

/-- All paths that the janitor has after a step it had before, but those of a new snapshot. -/
theorem JanitorMove.pending {disk : TmpDisk} (hmove : JanitorMove t disk j)
    (hd : d ∈ j.pending) :
    d ∈ t.janitor.pending ∨ disk = t.disk ∧ d ∈ t.disk.names ∧ d ∉ t.dirs := by
  cases hmove with
  | snapshot =>
    obtain ⟨hname, hdirs⟩ := List.mem_filter.1 hd
    exact .inr ⟨rfl, hname, of_decide_eq_true hdirs⟩
  | take hphase hpath hj =>
    have hold : t.janitor.pending = _ := congrArg _ hphase
    rw [JanitorPhase.pending_of_current hj] at hd
    rw [hold]
    rcases List.mem_cons.1 hd with heq | hmem
    · exact .inl (heq ▸ hpath)
    · exact .inl (List.mem_filter.1 hmem).1
  | working => exact .inl hd
  | done hcurrent =>
    rw [JanitorPhase.pending_of_current hcurrent]
    exact .inl (List.mem_cons_of_mem _ hd)
  | rests hnil => exact absurd (hnil ▸ hd) List.not_mem_nil

/-- What the order of registering, creating, deleting and unregistering keeps. A path that the
janitor has in its snapshot stays until it deletes it, so no directory of that name can be made. -/
structure Safe (t : TmpDirManager) : Prop where
  distinct : t.live.Nodup
  known : ∀ d ∈ t.live, d ∈ t.dirs
  made : ∀ d ∈ t.live, t.disk.has ⟨d, []⟩ = true
  held : ∀ d, t.main.held = some d → d ∈ t.dirs ∧ d ∉ t.live
  once : ∀ path toDelete, t.janitor.current = some (path, toDelete) → path ∉ toDelete
  present : ∀ d ∈ t.janitor.pending, t.disk.has ⟨d, []⟩ = true
  unknown : ∀ d ∈ t.janitor.pending, d ∈ t.dirs → t.main.candidate = some d

namespace Safe

theorem held_of_candidate {p : MainPhase} (h : p.candidate = some d) : p.held = some d := by
  cases p with
  | making => exact h
  | unregistering => exact h
  | _ => cases h

theorem not_live (h : Safe t) (hd : d ∈ t.janitor.pending) : d ∉ t.live := by
  intro hlive
  have hcandidate := h.unknown d hd (h.known d hlive)
  exact (h.held d (held_of_candidate hcandidate)).2 hlive

theorem start (saveTemps : Bool) : Safe (start saveTemps) where
  distinct := List.nodup_nil
  known _ hd := absurd hd List.not_mem_nil
  made _ hd := absurd hd List.not_mem_nil
  held _ hd := by cases hd
  once _ _ hd := by cases hd
  present _ hd := absurd hd List.not_mem_nil
  unknown _ hd := absurd hd List.not_mem_nil

theorem janitor_frame {disk : TmpDisk} (h : Safe t) (hmove : JanitorMove t disk j)
    (hlive : p.name ∈ t.live) :
    (p, k) ∈ disk ↔ (p, k) ∈ t.disk := by
  have houtside : ∀ {path toDelete}, t.janitor.current = some (path, toDelete) →
      p.name ≠ path := by
    intro path toDelete hcurrent heq
    subst heq
    have hpending := JanitorPhase.pending_of_current hcurrent
    exact h.not_live (hpending ▸ List.mem_cons_self) hlive
  cases hmove with
  | working hcurrent hd => exact hd p k (houtside hcurrent)
  | done hcurrent hd => exact hd p k (houtside hcurrent)
  | _ => exact .rfl

theorem janitor {disk : TmpDisk} (h : Safe t) (hmove : JanitorMove t disk j) :
    Safe { t with disk := disk, janitor := j } where
  distinct := h.distinct
  known := h.known
  made d hd := by
    obtain ⟨k, hk⟩ := TmpDisk.has_iff.1 (h.made d hd)
    exact TmpDisk.has_iff.2 ⟨k, (h.janitor_frame hmove hd).2 hk⟩
  held := h.held
  once path toDelete hcurrent := by
    cases hmove with
    | snapshot => cases hcurrent
    | take _ _ hj =>
      cases hj.symm.trans hcurrent
      exact fun hmem => of_decide_eq_true (List.mem_filter.1 hmem).2 rfl
    | working => exact h.once path toDelete hcurrent
    | done => cases hcurrent
    | rests _ hnone => cases hnone.symm.trans hcurrent
  present d hd := by
    rcases hmove.pending hd with hold | ⟨hdisk, hname, _⟩
    · have hhas := h.present d hold
      cases hmove with
      | @working path _ _ _ hdisk hpath =>
        by_cases heq : d = path
        · subst heq
          exact hpath hhas
        · exact hdisk.has heq hhas
      | done hcurrent hdisk =>
        apply hdisk.has _ hhas
        intro heq
        exact h.once _ _ hcurrent (heq ▸ hd)
      | _ => exact hhas
    · rw [hdisk]
      exact TmpDisk.mem_names.1 hname
  unknown d hd hknown := by
    rcases hmove.pending hd with hold | ⟨_, _, hdirs⟩
    · exact h.unknown d hold hknown
    · exact absurd hknown hdirs

/-- The main thread makes no directory of a name that the janitor is to delete. -/
theorem main (h : Safe t) (hmove : MainMove t t') : Safe t' := by
  cases hmove with
  | goes hheld hcandidate =>
    refine ⟨h.distinct, h.known, h.made, fun d hd => h.held d (hheld d hd), h.once, h.present, ?_⟩
    intro d hd hknown
    rcases hcandidate d (h.unknown d hd hknown) with hsome | hmissing
    · exact hsome
    · exact absurd (h.present d hd) (hmissing ▸ Bool.false_ne_true)
  | @registers c _ _ hnone hnew =>
    refine ⟨h.distinct, fun d hd => List.mem_append_left _ (h.known d hd), h.made, ?_, h.once,
      h.present, ?_⟩
    · intro d hd
      cases hd
      exact ⟨List.mem_append_right _ List.mem_cons_self, fun hlive => hnew (h.known c hlive)⟩
    · intro d hd hknown
      rcases List.mem_append.1 hknown with hold | hc
      · have hheld := held_of_candidate (h.unknown d hd hold)
        cases hnone.symm.trans hheld
      · exact congrArg some (List.mem_singleton.1 hc).symm
  | @makes c hheld hnew =>
    obtain ⟨hknown, hlive⟩ := h.held c hheld
    have hmade : TmpDisk.has (t.disk ++ [(⟨c, []⟩, .dir)]) ⟨c, []⟩ = true :=
      TmpDisk.has_iff.2 ⟨.dir, List.mem_append_right _ List.mem_cons_self⟩
    refine ⟨?_, ?_, ?_, fun d hd => (by cases hd), h.once,
      fun d hd => TmpDisk.has_append_of_has (h.present d hd) _, ?_⟩
    · rw [List.nodup_append]
      refine ⟨h.distinct, List.pairwise_singleton _ c, fun d hd d' hc heq => ?_⟩
      exact hlive (List.mem_singleton.1 hc ▸ heq ▸ hd)
    · intro d hd
      rcases List.mem_append.1 hd with hold | hc
      · exact h.known d hold
      · exact List.mem_singleton.1 hc ▸ hknown
    · intro d hd
      rcases List.mem_append.1 hd with hold | hc
      · exact TmpDisk.has_append_of_has (h.made d hold) _
      · exact List.mem_singleton.1 hc ▸ hmade
    · intro d hd hdirs
      have hc : t.main.held = some d := held_of_candidate (h.unknown d hd hdirs)
      cases hheld.symm.trans hc
      exact absurd (h.present c hd) (hnew ▸ Bool.false_ne_true)
  | @unregisters c p hheld hnone =>
    have hmem : ∀ {d}, d ∈ t.dirs.filter (· ≠ c) ↔ d ∈ t.dirs ∧ d ≠ c := by
      intro d
      rw [List.mem_filter, decide_eq_true_eq]
    refine ⟨h.distinct, ?_, h.made, ?_, h.once, h.present, ?_⟩
    · intro d hd
      exact hmem.2 ⟨h.known d hd, fun heq => (h.held c hheld).2 (heq ▸ hd)⟩
    · intro d hd
      cases hnone.symm.trans hd
    · intro d hd hknown
      obtain ⟨hdirs, hne⟩ := hmem.1 hknown
      have hc : t.main.held = some d := held_of_candidate (h.unknown d hd hdirs)
      cases hheld.symm.trans hc
      exact absurd rfl hne
  | @passes dir p hidle hdir hp =>
    have hsub : ∀ {d}, d ∈ t.live.filter (· ≠ dir) → d ∈ t.live := fun hd =>
      (List.mem_filter.1 hd).1
    refine ⟨h.distinct.filter _, fun d hd => h.known d (hsub hd), fun d hd => h.made d (hsub hd),
      ?_, h.once, h.present, ?_⟩
    · intro d hd
      rcases hp with hp | hp
      · subst hp
        cases hd
      · subst hp
        cases hd
        exact ⟨hdir, fun hmem => of_decide_eq_true (List.mem_filter.1 hmem).2 rfl⟩
    · intro d hd hknown
      have hcandidate := h.unknown d hd hknown
      rw [hidle] at hcandidate
      cases hcandidate
  | @deletes dir disk p hphase hd hp =>
    have hheld : t.main.held = some dir := congrArg _ hphase
    have hnone : t.main.candidate = none := congrArg _ hphase
    obtain ⟨hknown, hlive⟩ := h.held dir hheld
    refine ⟨h.distinct, h.known, ?_, ?_, h.once, ?_, ?_⟩
    · intro d hmem
      exact hd.has (fun heq : d = dir => hlive (heq ▸ hmem)) (h.made d hmem)
    · intro d hmem
      have hdir : p.held = some dir := by
        rcases hp with hp | hp
        · rw [hp]
          rfl
        · rw [hp]
          rfl
      cases hdir.symm.trans hmem
      exact ⟨hknown, hlive⟩
    · intro d hmem
      apply hd.has _ (h.present d hmem)
      intro heq
      have hd : d = dir := heq
      have hcandidate := h.unknown d hmem (hd ▸ hknown)
      cases hnone.symm.trans hcandidate
    · intro d hmem hdirs
      cases hnone.symm.trans (h.unknown d hmem hdirs)

theorem worker (h : Safe t) (hstep : t.workerStep e = some t') : Safe t' := by
  have hkeeps : ∀ disk : TmpDisk,
      (∀ d, t.disk.has ⟨d, []⟩ = true → disk.has ⟨d, []⟩ = true) → Safe { t with disk := disk } :=
    fun disk hdisk => ⟨h.distinct, h.known, fun d hd => hdisk d (h.made d hd), h.held, h.once,
      fun d hd => hdisk d (h.present d hd), h.unknown⟩
  cases e with
  | create path kind =>
    rw [workerStep] at hstep
    split at hstep
    · cases hstep
    · split at hstep
      · cases hstep
        exact hkeeps _ fun d hd => TmpDisk.has_append_of_has hd _
      · cases hstep
  | remove path =>
    rw [workerStep] at hstep
    split at hstep
    · rename_i hguard
      cases hstep
      apply hkeeps
      intro d hd
      obtain ⟨k, hk⟩ := TmpDisk.has_iff.1 hd
      refine TmpDisk.has_iff.2 ⟨k, TmpDisk.mem_remove.2 ⟨hk, fun heq => ?_⟩⟩
      exact hguard.1 (congrArg TmpPath.below heq).symm
    · cases hstep

theorem step (h : Safe t) (hstep : t.step e = some t') : Safe t' := by
  cases e with
  | main e => exact h.main (mainStep_move hstep)
  | janitor e =>
    obtain ⟨disk, j, heq, hmove⟩ := janitorStep_move hstep
    exact heq ▸ h.janitor hmove
  | worker e => exact h.worker hstep

theorem of_reach {saveTemps : Bool}
    (h : Reach TmpDirManager.step (TmpDirManager.start saveTemps) t) : Safe t :=
  h.invariant (Safe.start saveTemps) fun _ _ _ hsafe _ hstep => hsafe.step hstep

end Safe

/-- In every interleaving, the directories that are in use are distinct, registered and there, and
no step of the janitor deletes one of them or anything in one. -/
theorem janitor_spares_live {saveTemps : Bool} (h : Reach step (start saveTemps) t) :
    t.live.Nodup ∧ (∀ d ∈ t.live, d ∈ t.dirs ∧ t.disk.has ⟨d, []⟩) ∧
      ∀ e t', t.step (.janitor e) = some t' → ∀ p k, p.name ∈ t.live →
        ((p, k) ∈ t'.disk ↔ (p, k) ∈ t.disk) := by
  have hsafe := Safe.of_reach h
  refine ⟨hsafe.distinct, fun d hd => ⟨hsafe.known d hd, hsafe.made d hd⟩, ?_⟩
  intro e t' hstep p k hlive
  obtain ⟨disk, j, heq, hmove⟩ := janitorStep_move hstep
  subst heq
  exact hsafe.janitor_frame hmove hlive

/-- A directory that could not be deleted, whose prefix is asked for again while the janitor is about
to delete it. -/
def reusedPrefix : List Event :=
  let pre : DirPrefix := .sanitized "dir".toList
  [.main (.createDir pre), .main (.checkExists []), .main .register, .main (.makeDir true),
    .worker (.create ⟨"dir".toList, ["a".toList]⟩ .file), .main (.deleteDir "dir".toList),
    .main (.remove (.root false)), .main .forget, .main (.createDir pre), .janitor .snapshot,
    .main (.checkExists []), .main (.checkExists "-aaaaaa".toList),
    .main .register, .main (.makeDir true),
    .worker (.create ⟨"dir-aaaaaa".toList, ["a".toList]⟩ .file), .janitor (.take "dir".toList),
    .janitor (.remove (.below ["a".toList] true))]

theorem janitor_spares_live_reused : ∃ t, runFrom step (start false) reusedPrefix = some t ∧
    t.live = ["dir-aaaaaa".toList] ∧ t.janitor = .removing "dir".toList [] ∧ t.live.Nodup ∧
      (∀ d ∈ t.live, d ∈ t.dirs ∧ t.disk.has ⟨d, []⟩) ∧
        ∀ e t', t.step (.janitor e) = some t' → ∀ p k, p.name ∈ t.live →
          ((p, k) ∈ t'.disk ↔ (p, k) ∈ t.disk) := by
  have hrun : ∃ t, runFrom step (start false) reusedPrefix = some t ∧
      t.live = ["dir-aaaaaa".toList] ∧ t.janitor = .removing "dir".toList [] :=
    ⟨_, rfl, rfl, rfl⟩
  obtain ⟨t, hrun, hlive, hjanitor⟩ := hrun
  exact ⟨t, hrun, hlive, hjanitor, janitor_spares_live (runFrom_reach hrun)⟩

end TmpDirManager

end Cvise
