import Cvise.CommitSafety

namespace Cvise
set_option autoImplicit true

variable {T L : Type}

/-- A step that belongs to the call of `run_passes` that is under way. -/
def WithinCall (_ : TestManager T L) : Event T L → Prop
  | .runPasses _ => False
  | _ => True

/-- `run_passes` accepts the arguments. -/
def Call.Allowed (cfg : Config T) (call : Call T L) : Prop :=
  (call.augmentedPasses.length = 1 ∨ call.interleaving) ∧ call.sortedTestCases.Perm cfg.testCases

def Call.names (call : Call T L) : List Str := call.passes.map (·.pass.repr)

/-- The calls of `run_passes` one after the other, each with whether it executes its passes. -/
inductive Schedule [DecidableEq T] (cfg : Config T) :
    TestManager T L → List (Call T L × Bool) → Prop
  | nil : Schedule cfg m []
  | cons (hcall : step cfg m (.runPasses call) = some m₁) (hrun : Run (step cfg) WithinCall m₁ m₂)
      (hidle : m₂.phase = .idle) (h : Schedule cfg m₂ calls) :
      Schedule cfg m ((call, m₁.phase = .testCases) :: calls)

/-- The calls execute from the first one on that has a pass of this name. -/
def StartsWith (name : Str) (calls : List (Call T L × Bool)) : Prop :=
  ∀ before e after, calls = before ++ e :: after →
    (e.2 = true ↔ ∃ f ∈ before ++ [e], name ∈ f.1.names)

theorem StartsWith.executes (h : StartsWith name calls) (he : e ∈ calls) (hname : name ∈ e.1.names) :
    e.2 = true := by
  obtain ⟨before, after, rfl⟩ := List.append_of_mem he
  apply (h before e after rfl).2
  exact ⟨e, List.mem_append_right _ (List.mem_singleton_self e), hname⟩

/-- There is no pass context yet in which the name could be found. -/
theorem runPasses_ignored {m : TestManager T L} (hname : m.startWithPass = some name)
    (hne : name ≠ []) (hcontexts : m.passContexts = []) (hcall : call.Allowed cfg) :
    m.runPasses cfg call = m := by
  rw [TestManager.runPasses, if_pos hcall.1, hname, hcontexts]
  cases name with
  | nil => exact absurd rfl hne
  | cons x name => exact if_neg List.not_mem_nil

section
variable [DecidableEq T] {cfg : Config T} {m m' : TestManager T L}

theorem within_idle (hrun : Run (step cfg) WithinCall m m') (hp : m.phase = .idle)
    (hjobs : m.jobs = []) : m' = m := by
  have hwork : ∀ (order : Nat) (f : Job T L → Option (Job T L)), m.work order f = none := by
    intro order f
    rw [TestManager.work, hjobs]
    rfl
  apply hrun.invariant (P := fun u => u = m) rfl
  rintro u e v rfl hwithin hstep
  cases e with
  | runPasses call => exact hwithin.elim
  | main ch =>
    rw [step, TestManager.mainStep, hp] at hstep
    cases hstep
  | init order seed =>
    rw [step, TestManager.runInit, hjobs] at hstep
    cases hstep
  | copy order t => cases (hwork order _).symm.trans hstep
  | transform order seed => cases (hwork order _).symm.trans hstep
  | test order => cases (hwork order _).symm.trans hstep
  | timeOut order => cases (hwork order _).symm.trans hstep
  | fail order => cases (hwork order _).symm.trans hstep

variable {disk : T → TestCase} {t : T} {name : Str} {crashDirs : Nat}

theorem step_ignored (hne : name ≠ []) (hcall : call.Allowed cfg) :
    step cfg (.start disk t (some name) crashDirs : TestManager T L) (.runPasses call) =
      some (.start disk t (some name) crashDirs) := by
  have hignored := runPasses_ignored (m := .start disk t (some name) crashDirs) rfl hne rfl hcall
  rw [step, if_pos ⟨rfl, hcall.2⟩, hignored]

theorem schedule_ignored {calls : List (Call T L)} (hne : name ≠ [])
    (hcalls : ∀ call ∈ calls, call.Allowed cfg) :
    Schedule cfg (.start disk t (some name) crashDirs) (calls.map fun call => (call, false)) := by
  induction calls with
  | nil => exact .nil
  | cons call calls ih =>
    obtain ⟨hcall, hcalls⟩ := List.forall_mem_cons.1 hcalls
    exact .cons (step_ignored hne hcall) .refl rfl (ih hcalls)

theorem Schedule.ignored (h : Schedule cfg m calls) (hm : m = .start disk t (some name) crashDirs)
    (hne : name ≠ []) (hcalls : ∀ e ∈ calls, e.1.Allowed cfg) : ∀ e ∈ calls, e.2 = false := by
  induction h with
  | nil => exact fun e he => absurd he List.not_mem_nil
  | cons hcall hrun _ _ ih =>
    obtain ⟨hfirst, hrest⟩ := List.forall_mem_cons.1 hcalls
    subst hm
    cases hcall.symm.trans (step_ignored hne hfirst)
    intro e he
    rcases List.mem_cons.1 he with rfl | he
    · rfl
    · exact ih (within_idle hrun rfl rfl) hrest e he

/-- With the option, every call is ignored, so that none executes the pass of the name. -/
theorem startWithPass_ignored (disk : T → TestCase) (t : T) (name : Str) (crashDirs : Nat)
    (hne : name ≠ []) (calls : List (Call T L)) (hcalls : ∀ call ∈ calls, call.Allowed cfg)
    (hname : ∃ call ∈ calls, name ∈ call.names) :
    (∃ l, Schedule cfg (.start disk t (some name) crashDirs) l ∧ l.map Prod.fst = calls) ∧
      ∀ l, Schedule cfg (.start disk t (some name) crashDirs) l → l.map Prod.fst = calls →
        (∀ e ∈ l, e.2 = false) ∧ ¬ StartsWith name l := by
  apply And.intro
  · refine ⟨_, schedule_ignored hne hcalls, ?_⟩
    rw [List.map_map]
    exact List.map_id _
  · rintro l hl rfl
    have hignored := hl.ignored rfl hne fun e he => hcalls _ (List.mem_map.2 ⟨e, he, rfl⟩)
    refine ⟨hignored, fun hstarts => ?_⟩
    obtain ⟨_, hcall, hname⟩ := hname
    obtain ⟨e, he, rfl⟩ := List.mem_map.1 hcall
    cases (hignored e he).symm.trans (hstarts.executes he hname)

end

def trimCall : Call Unit Nat := ⟨[⟨trimPass, []⟩], false, [()]⟩

theorem trimCall_allowed : ∀ call ∈ [trimCall], call.Allowed nonemptyConfig := by
  intro call hcall
  cases List.mem_singleton.1 hcall
  exact ⟨.inl rfl, .refl _⟩

theorem startWithPass_ignored_trim : ∃ l,
    Schedule nonemptyConfig (.start (fun _ => .file [1, 2, 3]) () (some "TrimPass".toList) 0) l ∧
      l.map Prod.fst = [trimCall] ∧ (∀ e ∈ l, e.2 = false) ∧ ¬ StartsWith "TrimPass".toList l := by
  obtain ⟨⟨l, hl, hcalls⟩, hall⟩ := startWithPass_ignored (fun _ => .file [1, 2, 3]) ()
    "TrimPass".toList 0 (by decide) [trimCall] trimCall_allowed
      ⟨trimCall, List.mem_singleton_self _, by decide⟩
  exact ⟨l, hl, hcalls, hall l hl hcalls⟩

/-- The only call has the pass of the name and does nothing. -/
theorem trimCall_ignored :
    Schedule nonemptyConfig (.start (fun _ => .file [1, 2, 3]) () (some "TrimPass".toList) 0)
      [(trimCall, false)] ∧ ¬ StartsWith "TrimPass".toList [(trimCall, false)] := by
  apply And.intro
  · exact schedule_ignored (by decide) trimCall_allowed
  · intro hstarts
    cases hstarts.executes List.mem_cons_self (by decide)

end Cvise
