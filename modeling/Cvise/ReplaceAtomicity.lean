import Cvise.ReplaceTestCase

namespace Cvise
set_option autoImplicit true

@[simp] theorem put_self (p : Place) (t : Option TestCase) (fs : FileSystem) : put p t fs p = t :=
  Function.update_self _ _ _

@[simp] theorem put_other (h : q ≠ p) (t : Option TestCase) (fs : FileSystem) :
    put p t fs q = fs q := Function.update_of_ne h _ _

theorem Surroundings.check_triple (env : Surroundings) (step : ReplaceStep) (P : FileSystem → Prop) :
    Triple P (env.check step) (fun _ fs => P fs ∧ ∀ e, env.fault ≠ some (step, e))
      (fun e fs => P fs ∧ env.fault = some (step, e)) := by
  intro fs hP
  rw [check]
  cases hfault : env.fault with
  | none => exact ⟨hP, fun e h => nomatch h⟩
  | some f =>
    obtain ⟨s, e⟩ := f
    by_cases hs : s = step
    · simp only [hs, if_true]
      exact ⟨hP, rfl⟩
    · simp only [hs, if_false]
      exact ⟨hP, fun e' h => hs (by cases h; rfl)⟩

theorem replaceable_free (t : TestCase) : replaceable t none = true := by
  cases t <;> rfl

theorem rename_triple (p q : Place) (t : TestCase) (P : FileSystem → Prop)
    (hP : ∀ fs, P fs → fs p = some t ∧ replaceable t (fs q) = true) :
    Triple P (rename p q) (fun _ fs' => ∃ fs, P fs ∧ fs' = put q (some t) (put p none fs))
      (fun _ _ => False) := by
  intro fs hfs
  obtain ⟨hp, hq⟩ := hP fs hfs
  simp only [rename, hp, hq, if_true]
  exact ⟨fs, hfs, rfl⟩

/-- The old contents are set aside and an `OSError` comes, for which nothing brings them back. -/
def Lost (env : Surroundings) : Prop :=
  env.fault = some (.setAside, .osError) ∨ env.fault = some (.renaming, .osError)

instance (env : Surroundings) : Decidable (Lost env) := inferInstanceAs (Decidable (_ ∨ _))

theorem not_lost (h : env.fault = some (s, e)) (hs : s ≠ .setAside ∧ s ≠ .renaming) : ¬ Lost env := by
  rintro (h' | h') <;> rw [h] at h' <;> cases h'
  · exact hs.1 rfl
  · exact hs.2 rfl

/-- What an interrupted replacement of a directory leaves at the destination. -/
def Interrupted (env : Surroundings) (old new : TestCase) (fs : FileSystem) : Prop :=
  (Lost env ∧ fs .destination = none) ∨
    (¬ Lost env ∧ (fs .destination = some old ∨ fs .destination = some new))

/-- The new contents wait beside the old ones. -/
def Ready (old new : TestCase) (fs : FileSystem) : Prop :=
  fs .destination = some old ∧ fs .newPath = some new ∧ fs .oldDestination = none

def Aside (old new : TestCase) (fs : FileSystem) : Prop :=
  fs .destination = none ∧ fs .newPath = some new ∧ fs .oldDestination = some old

def Swapped (old new : TestCase) (fs : FileSystem) : Prop :=
  fs .destination = some new ∧ fs .oldDestination = some old

/-- Where the exception comes between the two renames. -/
def SwapFault (env : Surroundings) (old new : TestCase) (e : Interruption) (fs : FileSystem) : Prop :=
  (Ready old new fs ∧ env.fault = some (.settingAside, e)) ∨
    (Aside old new fs ∧ (env.fault = some (.setAside, e) ∨ env.fault = some (.renaming, e))) ∨
    (Swapped old new fs ∧ env.fault = some (.renamed, e))

theorem swap_body (env : Surroundings) (old new : TestCase) :
    Triple (Ready old new) (do
      env.check .settingAside
      rename .destination .oldDestination
      env.check .setAside
      env.check .renaming
      rename .newPath .destination
      env.check .renamed)
      (fun _ fs => fs .destination = some new ∧ ¬ Lost env) (SwapFault env old new) := by
  have haside : Triple (fun fs => Ready old new fs ∧ ∀ e, env.fault ≠ some (.settingAside, e))
      (rename .destination .oldDestination) (fun _ => Aside old new) (SwapFault env old new) := by
    apply (rename_triple _ _ old (Ready old new) fun fs h =>
      ⟨h.1, h.2.2.symm ▸ replaceable_free old⟩).consequence
    · exact fun _ h => h.1
    · rintro _ _ ⟨fs, h, rfl⟩
      exact ⟨by simp, by simp [h.2.1], by simp⟩
    · exact fun _ _ h => h.elim
  have hrename : Triple (fun fs => (Aside old new fs ∧ ∀ e, env.fault ≠ some (.setAside, e)) ∧
        ∀ e, env.fault ≠ some (.renaming, e))
      (rename .newPath .destination) (fun _ fs => Swapped old new fs ∧ ¬ Lost env)
      (SwapFault env old new) := by
    apply (rename_triple _ _ new (fun fs => Aside old new fs ∧ ¬ Lost env)
      fun fs h => ⟨h.1.2.1, h.1.1.symm ▸ replaceable_free new⟩).consequence
    · rintro fs ⟨⟨h, hset⟩, hren⟩
      exact ⟨h, fun hlost => hlost.elim (hset _) (hren _)⟩
    · rintro _ _ ⟨fs, ⟨h, hlost⟩, rfl⟩
      exact ⟨⟨by simp, by simp [h.2.2]⟩, hlost⟩
    · exact fun _ _ h => h.elim
  apply ((env.check_triple .settingAside (Ready old new)).consequence
    (fun _ h => h) (fun _ _ h => h) fun _ _ h => .inl h).bind
  intro _
  apply haside.bind
  intro _
  apply ((env.check_triple .setAside (Aside old new)).consequence
    (fun _ h => h) (fun _ _ h => h) fun _ _ h => .inr (.inl ⟨h.1, .inl h.2⟩)).bind
  intro _
  apply ((env.check_triple .renaming _).consequence
    (fun _ h => h) (fun _ _ h => h) fun _ _ h => .inr (.inl ⟨h.1.1, .inr h.2⟩)).bind
  intro _
  apply hrename.bind
  intro _
  apply (env.check_triple .renamed _).consequence (fun _ h => h)
  · exact fun _ fs h => ⟨h.1.1.1, h.1.2⟩
  · exact fun _ _ h => .inr (.inr ⟨h.1.1, h.2⟩)

theorem SwapFault.fault (h : SwapFault env old new e fs) : ∃ s, env.fault = some (s, e) := by
  rcases h with ⟨_, h⟩ | ⟨_, h | h⟩ | ⟨_, h⟩
  · exact ⟨_, h⟩
  · exact ⟨_, h⟩
  · exact ⟨_, h⟩
  · exact ⟨_, h⟩

theorem SwapFault.not_lost (h : SwapFault env old new e fs) (he : e ≠ .osError) : ¬ Lost env := by
  obtain ⟨s, hs⟩ := h.fault
  rintro (h' | h') <;> rw [hs] at h' <;> cases h' <;> exact he rfl

theorem SwapFault.interrupted (h : SwapFault env old new .osError fs) : Interrupted env old new fs := by
  rcases h with ⟨h, hfault⟩ | ⟨h, hfault⟩ | ⟨h, hfault⟩
  · exact .inr ⟨Cvise.not_lost hfault (by decide), .inl h.1⟩
  · exact .inl ⟨hfault, h.1⟩
  · exact .inr ⟨Cvise.not_lost hfault (by decide), .inr h.1⟩

/-- The old contents are brought back, unless the new ones are in their place already. -/
theorem restore_triple (env : Surroundings) (old new : TestCase) (e : Interruption) :
    Triple (SwapFault env old new e) (suppressException (rename .oldDestination .destination))
      (fun _ fs => fs .destination = some old ∨ fs .destination = some new) (fun _ _ => False) := by
  rintro fs (⟨h, _⟩ | ⟨h, _⟩ | ⟨h, _⟩)
  · -- They were not set aside yet.
    simp only [suppressException, tryExcept, rename, h.2.2, if_true]
    exact .inl h.1
  · simp only [suppressException, tryExcept, rename, h.2.2, h.1, replaceable_free, if_true]
    exact .inl (put_self _ _ _)
  · simp only [suppressException, tryExcept, rename, h.2, h.1]
    cases replaceable old (some new) with
    | true => exact .inl (put_self _ _ _)
    | false => exact .inr h.1

/-- The handler brings the old contents back unless the exception is an `OSError`. -/
theorem swap_handler (env : Surroundings) (old new : TestCase) (e : Interruption) :
    Triple (SwapFault env old new e) (do
      if e ≠ .osError then suppressException (rename .oldDestination .destination)
      throw e : FileM Unit)
      (fun _ fs => fs .destination = some new ∧ ¬ Lost env) (fun _ => Interrupted env old new) := by
  by_cases he : e = .osError
  · subst he
    exact Triple.ofThrow fun fs h => h.interrupted
  · have hrestored : Triple (SwapFault env old new e)
        (suppressException (rename .oldDestination .destination))
        (fun _ => Interrupted env old new) (fun _ => Interrupted env old new) := by
      intro fs h
      have hfs := restore_triple env old new e fs h
      cases hr : suppressException (rename .oldDestination .destination) fs with
      | ok _ t => rw [hr] at hfs; exact .inr ⟨h.not_lost he, hfs⟩
      | error _ t => rw [hr] at hfs; exact hfs.elim
    simp only [he, ne_eq, not_false_eq_true, if_true]
    exact hrestored.bind fun _ => Triple.ofThrow fun _ h => h

theorem swap_triple (env : Surroundings) (old new : TestCase) :
    Triple (Ready old new) (swap env) (fun _ fs => fs .destination = some new ∧ ¬ Lost env)
      (fun _ => Interrupted env old new) :=
  (swap_body env old new).tryExcept (swap_handler env old new)

/-- While the new contents are prepared, the old ones stay. -/
theorem prepareFrom_triple (env : Surroundings) (old : TestCase) (i : Nat)
    (stages : List (Option TestCase × Option TestCase)) :
    Triple (fun fs => fs .destination = some old ∧ fs .oldDestination = none)
      (prepareFrom env i stages)
      (fun _ fs => fs .destination = some old ∧ fs .oldDestination = none)
      (fun _ fs => fs .destination = some old ∧ ¬ Lost env) := by
  induction stages generalizing i with
  | nil =>
    apply (env.check_triple .prepared _).consequence (fun _ h => h)
    · exact fun _ _ h => h.1
    · exact fun _ _ h => ⟨h.1.1, not_lost h.2 ⟨by simp, by simp⟩⟩
  | cons stage rest ih =>
    have hcheck : Triple (fun fs => fs .destination = some old ∧ fs .oldDestination = none)
        (env.check (.preparing i)) (fun _ fs => fs .destination = some old ∧ fs .oldDestination = none)
        (fun _ fs => fs .destination = some old ∧ ¬ Lost env) := by
      apply (env.check_triple (.preparing i) _).consequence (fun _ h => h)
      · exact fun _ _ h => h.1
      · exact fun _ _ h => ⟨h.1.1, not_lost h.2 ⟨by simp, by simp⟩⟩
    apply hcheck.bind
    intro _
    apply Triple.bind (Triple.ofModify _) fun _ => ih (i + 1)
    intro fs h
    exact ⟨by simp [h.1], by simp [h.2]⟩

theorem prepare_triple (env : Surroundings) (move : Bool) (old new : TestCase) :
    Triple (fun fs => fs .destination = some old ∧ fs .oldDestination = none)
      (prepare env move new) (fun _ => Ready old new)
      (fun _ fs => fs .destination = some old ∧ ¬ Lost env) := by
  apply (prepareFrom_triple env old 0 env.preparing).bind
  intro _
  apply Triple.ofModify
  intro fs h
  exact ⟨by simp [h.1], by simp, by simp [h.2]⟩

/-- What is deleted on leaving is not the destination. -/
theorem leaveFrom_triple (env : Surroundings) (i : Nat) (stages : List (Option TestCase))
    (D : Option TestCase → Prop) :
    Triple (fun fs => D (fs .destination)) (leaveFrom env i stages) (fun _ fs => D (fs .destination))
      (fun e fs => D (fs .destination) ∧ ∃ j, env.fault = some (.leaving j, e)) := by
  have hcheck : ∀ i, Triple (fun fs => D (fs .destination)) (env.check (.leaving i))
      (fun _ fs => D (fs .destination))
      (fun e fs => D (fs .destination) ∧ ∃ j, env.fault = some (.leaving j, e)) := by
    intro i
    apply (env.check_triple (.leaving i) _).consequence (fun _ h => h)
    · exact fun _ _ h => h.1
    · exact fun _ _ h => ⟨h.1, i, h.2⟩
  induction stages generalizing i with
  | nil =>
    apply (hcheck i).bind
    intro _
    apply Triple.ofModify
    intro fs h
    simpa using h
  | cons stage rest ih =>
    apply (hcheck i).bind
    intro _
    apply Triple.bind (Triple.ofModify _) fun _ => ih (i + 1)
    intro fs h
    simpa using h

theorem cleanup_triple (D : Option TestCase → Prop) (e : Interruption) :
    Triple (fun fs => D (fs .destination)) (do cleanupAbnormalExit; throw e : FileM Unit)
      (fun _ _ => False) (fun _ fs => D (fs .destination)) := by
  have hdelete : Triple (fun fs => D (fs .destination)) cleanupAbnormalExit
      (fun _ fs => D (fs .destination)) (fun (_ : Interruption) fs => D (fs .destination)) := by
    apply Triple.ofModify
    intro fs h
    simpa using h
  exact hdelete.bind fun _ => Triple.ofThrow fun _ h => h

/-- A point where nothing is lost, whatever exception comes. -/
theorem check_safe (env : Surroundings) (old new : TestCase) (P : FileSystem → Prop)
    (hs : step ≠ .setAside ∧ step ≠ .renaming)
    (hP : ∀ fs, P fs → fs .destination = some old ∨ fs .destination = some new) :
    Triple P (env.check step) (fun _ => P) (fun _ => Interrupted env old new) := by
  apply (env.check_triple step P).consequence (fun _ h => h)
  · exact fun _ _ h => h.1
  · exact fun _ fs h => .inr ⟨not_lost h.2 hs, hP fs h.1⟩

theorem replaceDir_triple (env : Surroundings) (move : Bool) (old new : TestCase) :
    Triple (fun fs => fs .destination = some old ∧ fs .oldDestination = none)
      (replaceDirTestCaseAtomically env move new)
      (fun _ fs => fs .destination = some new ∧ ¬ Lost env) (fun _ => Interrupted env old new) := by
  have hprepare : Triple (fun fs => fs .destination = some old ∧ fs .oldDestination = none)
      (do prepare env move new; swap env) (fun _ fs => fs .destination = some new ∧ ¬ Lost env)
      (fun _ => Interrupted env old new) := by
    apply Triple.bind _ fun _ => swap_triple env old new
    exact (prepare_triple env move old new).consequence (fun _ h => h) (fun _ _ h => h)
      fun _ _ h => .inr ⟨h.2, .inl h.1⟩
  apply Triple.tryExcept
  · apply (check_safe env old new _ (by decide) fun _ h => .inl h.1).bind
    intro _
    apply (check_safe env old new _ (by decide) fun _ h => .inl h.1).bind
    intro _
    apply (hprepare.tryFinally (S := fun _ fs => fs .destination = some new ∧ ¬ Lost env)
      (F := fun _ => Interrupted env old new) ?_ ?_).bind
    · intro _
      exact check_safe env old new _ (by decide) fun _ h => .inr h.1
    · intro _
      apply (leaveFrom_triple env 0 env.deleting fun d => d = some new ∧ ¬ Lost env).consequence
        (fun _ h => h) (fun _ _ h => h)
      exact fun _ _ h => .inr ⟨h.1.2, .inr h.1.1⟩
    · intro _
      exact (leaveFrom_triple env 0 env.deleting fun d =>
        (Lost env ∧ d = none) ∨ (¬ Lost env ∧ (d = some old ∨ d = some new))).consequence
          (fun _ h => h) (fun _ _ h => h) fun _ _ h => h.1
  · intro e
    exact (cleanup_triple (fun d =>
        (Lost env ∧ d = none) ∨ (¬ Lost env ∧ (d = some old ∨ d = some new))) e).consequence
          (fun _ h => h) (fun _ _ h => h.elim) fun _ _ h => h

/-- What a replacement of a file leaves at the destination when it is interrupted. -/
theorem replaceFile_triple (env : Surroundings) (move : Bool) (old new : TestCase)
    (hold : old.isDir = false) (hnew : new.isDir = false) :
    Triple (fun fs => fs .destination = some old ∧ fs .oldDestination = none)
      (replaceFileTestCaseAtomically env move new) (fun _ fs => fs .destination = some new)
      (fun _ fs => fs .destination = some old ∨ fs .destination = some new) := by
  have hfiles : replaceable new (some old) = true := by
    cases old with
    | dir _ => cases hold
    | file _ =>
      cases new with
      | dir _ => cases hnew
      | file _ => rfl
  have hcheck : ∀ step (P : FileSystem → Prop),
      (∀ fs, P fs → fs .destination = some old ∨ fs .destination = some new) →
        Triple P (env.check step) (fun _ => P)
          (fun _ fs => fs .destination = some old ∨ fs .destination = some new) := by
    intro step P hP
    apply (env.check_triple step P).consequence (fun _ h => h)
    · exact fun _ _ h => h.1
    · exact fun _ fs h => hP fs h.1
  have hrename : Triple (Ready old new) (rename .newPath .destination)
      (fun _ fs => fs .destination = some new)
      (fun _ fs => fs .destination = some old ∨ fs .destination = some new) := by
    apply (rename_triple _ _ new (Ready old new) fun fs h => ⟨h.2.1, h.1.symm ▸ hfiles⟩).consequence
      (fun _ h => h)
    · rintro _ _ ⟨fs, _, rfl⟩
      exact put_self _ _ _
    · exact fun _ _ h => h.elim
  have hprepare : Triple (fun fs => fs .destination = some old ∧ fs .oldDestination = none)
      (do
        prepare env move new
        env.check .renaming
        rename .newPath .destination
        env.check .renamed)
      (fun _ fs => fs .destination = some new)
      (fun _ fs => fs .destination = some old ∨ fs .destination = some new) := by
    apply ((prepare_triple env move old new).consequence (fun _ h => h) (fun _ _ h => h)
      fun _ _ h => .inl h.1).bind
    intro _
    apply (hcheck _ _ fun _ h => .inl h.1).bind
    intro _
    apply hrename.bind
    intro _
    exact hcheck _ _ fun _ h => .inr h
  apply Triple.tryExcept
  · apply (hcheck _ _ fun _ h => .inl h.1).bind
    intro _
    apply Triple.bind (Q := fun _ fs => fs .destination = some old ∧ fs .oldDestination = none)
    · apply Triple.ofModify
      intro fs h
      exact ⟨by simp [h.1], by simp [h.2]⟩
    intro _
    apply (hcheck _ _ fun _ h => .inl h.1).bind
    intro _
    apply (hprepare.tryFinally (S := fun _ fs => fs .destination = some new)
      (F := fun _ fs => fs .destination = some old ∨ fs .destination = some new) ?_ ?_).bind
    · intro _
      exact hcheck _ _ fun _ h => .inr h
    · intro _
      exact (leaveFrom_triple env 0 [] fun d => d = some new).consequence
        (fun _ h => h) (fun _ _ h => h) fun _ _ h => .inr h.1
    · intro _
      exact (leaveFrom_triple env 0 [] fun d => d = some old ∨ d = some new).consequence
        (fun _ h => h) (fun _ _ h => h) fun _ _ h => h.1
  · intro e
    exact (cleanup_triple (fun d => d = some old ∨ d = some new) e).consequence
      (fun _ h => h) (fun _ _ h => h.elim) fun _ _ h => h

/-- The destination has the complete old or new contents, and the new ones if nothing was raised. -/
def Atomic (old new : TestCase) : EStateM.Result Interruption FileSystem Unit → Prop
  | .ok _ fs => fs .destination = some new
  | .error _ fs => fs .destination = some old ∨ fs .destination = some new

/-- The replacement is atomic, but for an `OSError` that comes while the old directory is set aside. -/
theorem replaceTestCase_atomic_iff (env : Surroundings) (move : Bool) (old new : TestCase)
    (fs : FileSystem) (hkind : old.isDir = new.isDir) (hsource : fs .source = some new)
    (hdestination : fs .destination = some old) (hold : fs .oldDestination = none) :
    Atomic old new (replaceTestCaseAtomically env move fs) ↔ ¬ (new.isDir ∧ Lost env) := by
  cases hdir : new.isDir with
  | true =>
    have hfs := replaceDir_triple env move old new fs ⟨hdestination, hold⟩
    simp only [replaceTestCaseAtomically, hsource, hdir, if_true, true_and]
    cases hr : replaceDirTestCaseAtomically env move new fs with
    | ok _ t =>
      rw [hr] at hfs
      exact ⟨fun _ => hfs.2, fun _ => hfs.1⟩
    | error _ t =>
      rw [hr] at hfs
      rcases hfs with ⟨hlost, hnone⟩ | ⟨hlost, hkept⟩
      · constructor
        · intro h
          rw [Atomic, hnone] at h
          exact h.elim (fun h => nomatch h) fun h => nomatch h
        · exact fun h => absurd hlost h
      · exact ⟨fun _ => hlost, fun _ => hkept⟩
  | false =>
    have hfs := replaceFile_triple env move old new (hkind.trans hdir) hdir fs ⟨hdestination, hold⟩
    have hatomic : Atomic old new (replaceFileTestCaseAtomically env move new fs) := by
      cases hr : replaceFileTestCaseAtomically env move new fs with
      | ok _ t => rw [hr] at hfs; exact hfs
      | error _ t => rw [hr] at hfs; exact hfs
    simp only [replaceTestCaseAtomically, hsource, hdir]
    exact ⟨fun _ h => (nomatch h.1), fun _ => hatomic⟩

def oldDir : TestCase :=
  .dir ⟨[([['a']], .file [1])], List.pairwise_singleton _ _, by decide⟩

def newDir : TestCase :=
  .dir ⟨[([['b']], .file [2])], List.pairwise_singleton _ _, by decide⟩

def twoDirs : FileSystem
  | .source => some newDir
  | .destination => some oldDir
  | _ => none

/-- The second rename fails, and the only copy of the old contents is deleted. -/
def renameFails : Surroundings := { fault := some (.renaming, .osError) }

theorem replaceTestCase_lost :
    ¬ Atomic oldDir newDir (replaceTestCaseAtomically renameFails false twoDirs) := by
  intro h
  have hnone : (none : Option TestCase) = some oldDir ∨ none = some newDir := h
  rcases hnone with hnone | hnone <;> cases hnone

theorem replaceTestCase_atomic_iff_twoDirs :
    Atomic oldDir newDir (replaceTestCaseAtomically renameFails false twoDirs) ↔
      ¬ (newDir.isDir ∧ Lost renameFails) :=
  replaceTestCase_atomic_iff renameFails false oldDir newDir twoDirs rfl rfl rfl rfl

end Cvise
