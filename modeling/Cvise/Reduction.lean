import Cvise.CacheSoundness
import Cvise.PassGroups
import Mathlib.Logic.Relation

namespace Cvise
set_option autoImplicit true

variable {S P : Type}

/-- What a call leads to that returns: it may raise. -/
abbrev Returned (α : Type) := Option (Except PyErr α)

/-- Goes on with the result of a call that has returned without an exception. -/
def Returned.andThen {α β : Type} (r : Returned α) (next : α → Returned β) : Returned β :=
  match r with
  | none => none
  | some (.error e) => some (.error e)
  | some (.ok a) => next a

theorem andThen_ok {α β : Type} {r : Returned α} {next : α → Returned β} {b : β} :
    r.andThen next = some (.ok b) ↔ ∃ a, r = some (.ok a) ∧ next a = some (.ok b) := by
  cases r with
  | none => simp [Returned.andThen]
  | some res =>
    cases res with
    | error e => simp [Returned.andThen]
    | ok a => simp [Returned.andThen]

theorem andThen_isSome {α β : Type} {r : Returned α} {next : α → Returned β} (hr : r.isSome)
    (hnext : ∀ a, r = some (.ok a) → (next a).isSome) : (r.andThen next).isSome := by
  obtain ⟨res, rfl⟩ := Option.isSome_iff_exists.1 hr
  cases res with
  | error e => rfl
  | ok a => exact hnext a rfl

/-- What `CVise` uses of its passes and of the test manager, whose state is `S`. -/
structure Reducer (S P : Type) where
  checkPrerequisites : P → Bool
  skipInterestingnessTestCheck : Bool := false
  tidy : Bool := false
  checkSanity : S → Except PyErr Unit
  backupTestCases : S → Except PyErr Unit
  /-- `run_passes`, with the passes and whether they interleave; it need not return. -/
  runPasses : List P → Bool → S → Returned S
  totalFileSize : S → Nat
  origTotalFileSize : Nat
  /-- Whether the improvement, computed in floating point from the original size and the size now,
  reaches the threshold. -/
  reachesThreshold : Nat → Nat → Bool

namespace Reducer

/-- `_met_stopping_threshold`, which divides by the original size. -/
def metStoppingThreshold (env : Reducer S P) (s : S) : Except PyErr Bool :=
  if env.origTotalFileSize = 0 then .error .other
  else .ok (env.reachesThreshold env.origTotalFileSize (env.totalFileSize s))

/-- `check_threshold and self._met_stopping_threshold()`. -/
def thresholdIf (env : Reducer S P) (checkThreshold : Bool) (s : S) : Except PyErr Bool :=
  if checkThreshold then env.metStoppingThreshold s else .ok false

/-- The passes of a category that does not interleave, each in a call of its own. -/
def runEach (env : Reducer S P) (checkThreshold : Bool) : List P → S → Returned (S × Bool)
  | [], s => some do return (s, ← env.thresholdIf checkThreshold s)
  | p :: passes, s =>
    Returned.andThen (some (env.thresholdIf checkThreshold s)) fun met =>
      if met then some (.ok (s, true))
      else (env.runPasses [p] false s).andThen fun s => env.runEach checkThreshold passes s

/-- `_run_passes`: the state, and whether the stopping threshold was met. -/
def runPassesOnce (env : Reducer S P) (passes : List P) (interleaving checkThreshold : Bool)
    (s : S) : Returned (S × Bool) :=
  let availablePasses := passes.filter env.checkPrerequisites
  if availablePasses.isEmpty then some (.ok (s, false))
  else if interleaving then
    (env.runPasses availablePasses interleaving s).andThen fun s =>
      some do return (s, ← env.thresholdIf checkThreshold s)
  else env.runEach checkThreshold availablePasses s

/-- The loop of `_run_pass_category`, for at most so many rounds. -/
def loopCategory (env : Reducer S P) (passes : List P) (interleaving : Bool) :
    Nat → S → Returned S
  | 0, _ => none
  | rounds + 1, s =>
    (env.runPassesOnce passes interleaving true s).andThen fun (s', met) =>
      if env.totalFileSize s' ≥ env.totalFileSize s ∨ met then some (.ok s')
      else env.loopCategory passes interleaving rounds s'

def runPassCategory (env : Reducer S P) (rounds : Nat) (passes : List P) (category : PassCategory)
    (s : S) : Returned S :=
  if category.once then
    (env.runPassesOnce passes category.interleaving false s).andThen fun (s', _) => some (.ok s')
  else env.loopCategory passes category.interleaving rounds s

def reduceCategories (env : Reducer S P) (rounds : Nat) (skipInitial : Bool) :
    Dict Str (List P) → S → Returned S
  | [], s => some (.ok s)
  | (name, passes) :: group, s =>
    match passCategories.find? (·.name = name) with
    | none => some (.error .other)
    | some category =>
      if skipInitial && category.initial then env.reduceCategories rounds skipInitial group s
      else (env.runPassCategory rounds passes category s).andThen fun s' =>
        env.reduceCategories rounds skipInitial group s'

/-- What `reduce` does before it runs passes. -/
def prepare (env : Reducer S P) (s : S) : Except PyErr Unit := do
  if !env.skipInterestingnessTestCheck then env.checkSanity s
  if !env.tidy then env.backupTestCases s

/-- `reduce`, with a bound on the rounds of each loop. -/
def reduce (env : Reducer S P) (rounds : Nat) (group : Dict Str (List P)) (skipInitial : Bool)
    (s : S) : Returned S :=
  Returned.andThen (some (env.prepare s)) fun () => env.reduceCategories rounds skipInitial group s

/-- Rounds of the loop that it goes on after, and the state that they lead to. -/
inductive Rounds (env : Reducer S P) (passes : List P) (interleaving : Bool) : S → Nat → S → Prop
  | start : Rounds env passes interleaving s 0 s
  | next (hrun : env.runPassesOnce passes interleaving true s = some (.ok (u, false)))
      (hlt : env.totalFileSize u < env.totalFileSize s) (h : Rounds env passes interleaving u n v) :
      Rounds env passes interleaving s (n + 1) v

/-- The last round of a loop: it has met the threshold, or has not made the test cases smaller. -/
structure LastRound (env : Reducer S P) (passes : List P) (interleaving : Bool) (u v : S)
    (met : Bool) : Prop where
  run : env.runPassesOnce passes interleaving true u = some (.ok (v, met))
  ended : met = true ∨ env.totalFileSize u ≤ env.totalFileSize v

/-- What a reduction does that raises nothing, category by category. -/
inductive Reduces (env : Reducer S P) (skipInitial : Bool) : Dict Str (List P) → S → S → Prop
  | nil : Reduces env skipInitial [] s s
  | skipped (hcat : passCategories.find? (·.name = name) = some category)
      (hskip : skipInitial = true) (hinitial : category.initial = true)
      (h : Reduces env skipInitial group s t) :
      Reduces env skipInitial ((name, passes) :: group) s t
  | once (hcat : passCategories.find? (·.name = name) = some category)
      (hskip : (skipInitial && category.initial) = false) (honce : category.once = true)
      (hrun : env.runPassesOnce passes category.interleaving false s = some (.ok (u, met)))
      (h : Reduces env skipInitial group u t) :
      Reduces env skipInitial ((name, passes) :: group) s t
  | looped (hcat : passCategories.find? (·.name = name) = some category)
      (hskip : (skipInitial && category.initial) = false) (hloop : category.once = false)
      (hrounds : Rounds env passes category.interleaving s n u)
      (hlast : LastRound env passes category.interleaving u v met)
      (h : Reduces env skipInitial group v t) :
      Reduces env skipInitial ((name, passes) :: group) s t

variable {env : Reducer S P} {passes : List P} {interleaving skipInitial : Bool}

theorem runEach_invariant {Q : S → Prop}
    (hrun : ∀ passes interleaving s s',
      env.runPasses passes interleaving s = some (.ok s') → Q s → Q s')
    (h : env.runEach checkThreshold passes s = some (.ok (s', met))) (hs : Q s) : Q s' := by
  induction passes generalizing s with
  | nil =>
    obtain ⟨met', -, h⟩ := except_bind_ok.1 (Option.some.inj h)
    cases h
    exact hs
  | cons p passes ih =>
    obtain ⟨reached, -, h⟩ := andThen_ok.1 h
    cases reached with
    | true =>
      cases h
      exact hs
    | false =>
      obtain ⟨u, hu, h⟩ := andThen_ok.1 h
      exact ih h (hrun _ _ _ _ hu hs)

theorem runPassesOnce_invariant {Q : S → Prop}
    (hrun : ∀ passes interleaving s s',
      env.runPasses passes interleaving s = some (.ok s') → Q s → Q s')
    (h : env.runPassesOnce passes interleaving checkThreshold s = some (.ok (s', met)))
    (hs : Q s) : Q s' := by
  rw [runPassesOnce] at h
  split at h
  · cases h
    exact hs
  · split at h
    · obtain ⟨u, hu, h⟩ := andThen_ok.1 h
      obtain ⟨met', -, h⟩ := except_bind_ok.1 (Option.some.inj h)
      cases h
      exact hrun _ _ _ _ hu hs
    · exact runEach_invariant hrun h hs

/-- What every call of `run_passes` keeps is kept by the whole reduction. -/
theorem Reduces.invariant {Q : S → Prop}
    (hrun : ∀ passes interleaving s s',
      env.runPasses passes interleaving s = some (.ok s') → Q s → Q s')
    (h : Reduces env skipInitial group s t) (hs : Q s) : Q t := by
  induction h with
  | nil => exact hs
  | skipped _ _ _ _ ih => exact ih hs
  | once _ _ _ hpasses _ ih => exact ih (runPassesOnce_invariant hrun hpasses hs)
  | looped _ _ _ hrounds hlast _ ih =>
    apply ih
    apply runPassesOnce_invariant hrun hlast.run
    clear hlast ih
    induction hrounds with
    | start => exact hs
    | next hpasses _ _ ih => exact ih (runPassesOnce_invariant hrun hpasses hs)

/-- Each call of `run_passes` returns that is made in the state, or after such calls. -/
def CallsReturn (env : Reducer S P) (s : S) : Prop :=
  ∀ u, Relation.ReflTransGen
      (fun a b => ∃ passes interleaving, env.runPasses passes interleaving a = some (.ok b)) s u →
    ∀ passes interleaving, (env.runPasses passes interleaving u).isSome

theorem CallsReturn.call (h : CallsReturn env s) :
    (env.runPasses passes interleaving s).isSome := h s .refl _ _

theorem CallsReturn.next (passes : List P) (interleaving : Bool) (s s' : S)
    (hrun : env.runPasses passes interleaving s = some (.ok s')) (h : CallsReturn env s) :
    CallsReturn env s' := fun u hu => h u (.head ⟨passes, interleaving, hrun⟩ hu)

theorem CallsReturn.runEach (h : CallsReturn env s) :
    (env.runEach checkThreshold passes s).isSome := by
  induction passes generalizing s with
  | nil => rfl
  | cons p passes ih =>
    apply andThen_isSome rfl
    intro met _
    cases met with
    | true => rfl
    | false => exact andThen_isSome h.call fun s' hs' => ih (h.next _ _ _ _ hs')

theorem CallsReturn.runPassesOnce (h : CallsReturn env s) :
    (env.runPassesOnce passes interleaving checkThreshold s).isSome := by
  rw [Reducer.runPassesOnce]
  split
  · rfl
  · split
    · exact andThen_isSome h.call fun _ _ => rfl
    · exact h.runEach

theorem CallsReturn.after (h : CallsReturn env s)
    (hrun : env.runPassesOnce passes interleaving checkThreshold s = some (.ok (s', met))) :
    CallsReturn env s' :=
  runPassesOnce_invariant (Q := CallsReturn env) CallsReturn.next hrun h

/-- A round that returns ends the loop, or leads to a state with less in its files. -/
theorem loopCategory_round
    (h : (env.runPassesOnce passes interleaving true s).isSome) :
    (∃ e, env.runPassesOnce passes interleaving true s = some (.error e) ∧
        ∀ n, env.loopCategory passes interleaving (n + 1) s = some (.error e)) ∨
      (∃ v met, LastRound env passes interleaving s v met ∧
        ∀ n, env.loopCategory passes interleaving (n + 1) s = some (.ok v)) ∨
      ∃ v, env.runPassesOnce passes interleaving true s = some (.ok (v, false)) ∧
        env.totalFileSize v < env.totalFileSize s ∧
        ∀ n, env.loopCategory passes interleaving (n + 1) s =
          env.loopCategory passes interleaving n v := by
  obtain ⟨result, hrun⟩ := Option.isSome_iff_exists.1 h
  simp only [loopCategory, hrun]
  cases result with
  | error e => exact .inl ⟨e, rfl, fun _ => rfl⟩
  | ok result =>
    obtain ⟨v, met⟩ := result
    by_cases hend : env.totalFileSize v ≥ env.totalFileSize s ∨ met = true
    · exact .inr (.inl ⟨v, met, ⟨hrun, hend.symm⟩, fun _ => if_pos hend⟩)
    · obtain ⟨hlt, hmet⟩ := not_or.1 hend
      rw [Bool.not_eq_true] at hmet
      subst hmet
      exact .inr (.inr ⟨v, rfl, not_le.1 hlt, fun _ => if_neg hend⟩)

theorem loopCategory_ends (hcalls : CallsReturn env s) (h : env.totalFileSize s < n) :
    ∃ r, ∀ m, n ≤ m → env.loopCategory passes interleaving m s = some r := by
  induction n generalizing s with
  | zero => cases h
  | succ n ih =>
    have hsucc {m : Nat} (hm : n + 1 ≤ m) : ∃ k, m = k + 1 ∧ n ≤ k :=
      ⟨m - 1, by omega, by omega⟩
    have hround : (env.runPassesOnce passes interleaving true s).isSome := hcalls.runPassesOnce
    rcases loopCategory_round hround with
      ⟨e, -, hloop⟩ | ⟨v, met, -, hloop⟩ | ⟨v, hrun, hlt, hloop⟩
    · refine ⟨.error e, fun m hm => ?_⟩
      obtain ⟨k, rfl, -⟩ := hsucc hm
      exact hloop k
    · refine ⟨.ok v, fun m hm => ?_⟩
      obtain ⟨k, rfl, -⟩ := hsucc hm
      exact hloop k
    · obtain ⟨r, hr⟩ := ih (hcalls.after hrun) (lt_of_lt_of_le hlt (Nat.le_of_lt_succ h))
      refine ⟨r, fun m hm => ?_⟩
      obtain ⟨k, rfl, hk⟩ := hsucc hm
      rw [hloop k, hr k hk]

theorem loopCategory_ok (h : env.loopCategory passes interleaving m s = some (.ok v)) :
    ∃ n u met, Rounds env passes interleaving s n u ∧
      LastRound env passes interleaving u v met := by
  induction m generalizing s with
  | zero => cases h
  | succ m ih =>
    obtain ⟨result, hrun, -⟩ := andThen_ok.1 h
    rcases loopCategory_round (Option.isSome_iff_exists.2 ⟨_, hrun⟩) with
      ⟨e, -, hloop⟩ | ⟨w, met, hlast, hloop⟩ | ⟨w, hrun, hlt, hloop⟩
    · cases (hloop m).symm.trans h
    · cases (hloop m).symm.trans h
      exact ⟨0, s, met, .start, hlast⟩
    · obtain ⟨n, u, met, hrounds, hlast⟩ := ih ((hloop m).symm.trans h)
      exact ⟨n + 1, u, met, .next hrun hlt hrounds, hlast⟩

theorem Rounds.loopCategory (h : Rounds env passes interleaving s n u)
    (hlast : LastRound env passes interleaving u v met) (hm : n < m) :
    env.loopCategory passes interleaving m s = some (.ok v) := by
  obtain ⟨m, rfl⟩ := Nat.exists_eq_add_of_lt hm
  induction h with
  | start =>
    rw [Reducer.loopCategory, hlast.run]
    exact if_pos hlast.ended.symm
  | @next s u n v hrun hlt _ ih =>
    have hrounds : n + 1 + m + 1 = n + m + 1 + 1 := by omega
    rw [hrounds, Reducer.loopCategory, hrun]
    refine (if_neg ?_).trans (ih hlast (by omega))
    rintro (hge | hmet)
    · exact absurd hge (not_le.2 hlt)
    · cases hmet

theorem runPassCategory_ends (h : CallsReturn env s) (passes : List P) (category : PassCategory) :
    ∃ n r, ∀ m, n ≤ m → env.runPassCategory m passes category s = some r := by
  cases honce : category.once with
  | true =>
    have hsome : (env.runPassCategory 0 passes category s).isSome := by
      rw [runPassCategory, if_pos honce]
      exact andThen_isSome h.runPassesOnce fun _ _ => rfl
    obtain ⟨r, hr⟩ := Option.isSome_iff_exists.1 hsome
    refine ⟨0, r, fun m _ => ?_⟩
    rw [← hr, runPassCategory, runPassCategory, if_pos honce, if_pos honce]
  | false =>
    have hends : ∃ r, ∀ m, env.totalFileSize s + 1 ≤ m →
        env.loopCategory passes category.interleaving m s = some r :=
      loopCategory_ends h (Nat.lt_succ_self _)
    obtain ⟨r, hr⟩ := hends
    refine ⟨env.totalFileSize s + 1, r, fun m hm => ?_⟩
    rw [runPassCategory, honce]
    exact hr m hm

theorem runPassCategory_once (honce : category.once = true) :
    env.runPassCategory m passes category s = some (.ok u) ↔
      ∃ met, env.runPassesOnce passes category.interleaving false s = some (.ok (u, met)) := by
  rw [runPassCategory, if_pos honce, andThen_ok]
  constructor
  · rintro ⟨⟨u', met⟩, hrun, h⟩
    cases h
    exact ⟨met, hrun⟩
  · rintro ⟨met, hrun⟩
    exact ⟨(u, met), hrun, rfl⟩

theorem CallsReturn.category {category : PassCategory} (h : CallsReturn env s)
    (hrun : env.runPassCategory m passes category s = some (.ok u)) : CallsReturn env u := by
  cases honce : category.once with
  | true =>
    obtain ⟨met, hrun⟩ := (runPassCategory_once honce).1 hrun
    exact h.after hrun
  | false =>
    rw [runPassCategory, honce] at hrun
    obtain ⟨n, w, met, hrounds, hlast⟩ := loopCategory_ok hrun
    have hw : CallsReturn env w := by
      clear hlast hrun
      induction hrounds with
      | start => exact h
      | next hpasses _ _ ih => exact ih (h.after hpasses)
    exact hw.after hlast.run

theorem reduceCategories_ends (h : CallsReturn env s) (skipInitial : Bool)
    (group : Dict Str (List P)) :
    ∃ n r, ∀ m, n ≤ m → env.reduceCategories m skipInitial group s = some r := by
  induction group generalizing s with
  | nil => exact ⟨0, .ok s, fun _ _ => rfl⟩
  | cons e group ih =>
    obtain ⟨name, passes⟩ := e
    simp only [reduceCategories]
    cases passCategories.find? (·.name = name) with
    | none => exact ⟨0, .error .other, fun _ _ => rfl⟩
    | some category =>
      simp only
      split
      · exact ih h
      · obtain ⟨n, r, hr⟩ := runPassCategory_ends h passes category
        cases r with
        | error e =>
          refine ⟨n, .error e, fun m hm => ?_⟩
          rw [hr m hm]
          rfl
        | ok s' =>
          obtain ⟨n', r', hr'⟩ := ih (h.category (hr n (Nat.le_refl n)))
          refine ⟨max n n', r', fun m hm => ?_⟩
          rw [hr m (le_trans (Nat.le_max_left _ _) hm)]
          exact hr' m (le_trans (Nat.le_max_right _ _) hm)

theorem reduceCategories_ok
    (h : env.reduceCategories m skipInitial group s = some (.ok t)) :
    Reduces env skipInitial group s t := by
  induction group generalizing s with
  | nil =>
    cases h
    exact .nil
  | cons e group ih =>
    obtain ⟨name, passes⟩ := e
    rw [reduceCategories] at h
    cases hcat : passCategories.find? (·.name = name) with
    | none =>
      rw [hcat] at h
      cases h
    | some category =>
      rw [hcat] at h
      simp only at h
      cases hskip : skipInitial && category.initial with
      | true =>
        rw [hskip, if_pos rfl] at h
        obtain ⟨hs, hi⟩ := (Bool.and_eq_true _ _).mp hskip
        exact .skipped hcat hs hi (ih h)
      | false =>
        rw [hskip, if_neg Bool.false_ne_true] at h
        obtain ⟨u, hrun, h⟩ := andThen_ok.1 h
        cases honce : category.once with
        | true =>
          obtain ⟨met, hrun⟩ := (runPassCategory_once honce).1 hrun
          exact .once hcat hskip honce hrun (ih h)
        | false =>
          rw [runPassCategory, honce] at hrun
          obtain ⟨n, w, met, hrounds, hlast⟩ := loopCategory_ok hrun
          exact .looped hcat hskip honce hrounds hlast (ih h)

theorem Reduces.reduceCategories (h : Reduces env skipInitial group s t) :
    ∃ n, ∀ m, n ≤ m → env.reduceCategories m skipInitial group s = some (.ok t) := by
  induction h with
  | nil => exact ⟨0, fun _ _ => rfl⟩
  | skipped hcat hskip hinitial _ ih =>
    obtain ⟨n, hn⟩ := ih
    refine ⟨n, fun m hm => ?_⟩
    rw [Reducer.reduceCategories, hcat]
    subst hskip
    simp only [hinitial, Bool.and_self, if_true]
    exact hn m hm
  | once hcat hskip honce hrun _ ih =>
    obtain ⟨n, hn⟩ := ih
    refine ⟨n, fun m hm => ?_⟩
    rw [Reducer.reduceCategories, hcat]
    simp only [hskip, Bool.false_eq_true, if_false, (runPassCategory_once honce).2 ⟨_, hrun⟩]
    exact hn m hm
  | looped hcat hskip hloop hrounds hlast _ ih =>
    obtain ⟨n, hn⟩ := ih
    rename_i k _ _ _ _ _ _
    refine ⟨max n (k + 1), fun m hm => ?_⟩
    have hloops := hrounds.loopCategory hlast (lt_of_lt_of_le (Nat.lt_succ_self _)
      (le_trans (Nat.le_max_right _ _) hm))
    rw [Reducer.reduceCategories, hcat]
    simp only [hskip, Bool.false_eq_true, if_false, runPassCategory, hloop, hloops]
    exact hn m (le_trans (Nat.le_max_left _ _) hm)

theorem prepare_ok : env.prepare s = .ok () ↔
    (env.skipInterestingnessTestCheck = true ∨ env.checkSanity s = .ok ()) ∧
      (env.tidy = true ∨ env.backupTestCases s = .ok ()) := by
  rw [prepare]
  cases env.skipInterestingnessTestCheck <;> cases env.checkSanity s <;> cases env.tidy <;>
    simp [except_bind_ok, pure, Except.pure]

/-- `reduce` comes to an end whatever the passes do to the sizes, as long as each call of `run_passes`
does. It returns just when nothing is raised, and then each category that is looped over has ended
with a round that met the threshold or left as much in the files as it found. -/
theorem reduce_ends (h : CallsReturn env s) (group : Dict Str (List P)) (skipInitial : Bool) :
    ∃ n r, (∀ m, n ≤ m → env.reduce m group skipInitial s = some r) ∧
      ∀ t, r = .ok t ↔
        (env.skipInterestingnessTestCheck = true ∨ env.checkSanity s = .ok ()) ∧
        (env.tidy = true ∨ env.backupTestCases s = .ok ()) ∧ Reduces env skipInitial group s t := by
  obtain ⟨n, r, hr⟩ := reduceCategories_ends h skipInitial group
  have hok (t : S) : r = .ok t ↔ Reduces env skipInitial group s t := by
    constructor
    · rintro rfl
      exact reduceCategories_ok (hr n (Nat.le_refl n))
    · intro h
      obtain ⟨k, hk⟩ := h.reduceCategories
      exact Option.some.inj ((hr _ (Nat.le_max_left n k)).symm.trans (hk _ (Nat.le_max_right n k)))
  cases hprepare : env.prepare s with
  | error e =>
    refine ⟨0, .error e, fun m _ => ?_, fun t => iff_of_false (fun h => by cases h) fun h => ?_⟩
    · rw [reduce, hprepare]
      rfl
    · cases hprepare.symm.trans (prepare_ok.2 ⟨h.1, h.2.1⟩)
  | ok =>
    obtain ⟨hsanity, hbackup⟩ := prepare_ok.1 hprepare
    refine ⟨n, r, fun m hm => ?_, fun t => ?_⟩
    · rw [reduce, hprepare]
      exact hr m hm
    · rw [hok t, and_iff_right hsanity, and_iff_right hbackup]

end Reducer

variable {T L : Type} [DecidableEq T] {cfg : Config T}

/-- `check_sanity`, which runs the test on copies of all test cases. -/
def TestManager.checkSanity (cfg : Config T) (m : TestManager T L) : Except PyErr Unit :=
  if ∃ t ∈ cfg.testCases, diskCopy cfg m.disk t = none then .error .osError
  else if (cfg.test fun t => if t ∈ cfg.testCases then diskCopy cfg m.disk t else none).1 = 0 then
    .ok ()
  else .error .other

theorem TestManager.interesting_of_checkSanity {m : TestManager T L}
    (hplain : ∀ t ∈ cfg.testCases, (m.disk t).Plain) (h : m.checkSanity cfg = .ok ()) :
    Interesting cfg m.disk := by
  have hcopies : (fun t => if t ∈ cfg.testCases then diskCopy cfg m.disk t else none) =
      snapshot cfg m.disk := by
    funext t
    rw [snapshot]
    split
    · rename_i ht
      exact TestCase.copy_eq_self.2 (hplain t ht)
    · rfl
  rw [checkSanity, hcopies] at h
  split at h
  · cases h
  · split at h
    · assumption
    · cases h

/-- The reducer works on the test manager: each call of `run_passes` that returns is a run of the
steps of the manager and its workers. No test case is taken from the cache in it. -/
structure Reducer.WorksOn (env : Reducer (TestManager T L) (ScheduledPass L)) (cfg : Config T) :
    Prop where
  checkSanity : env.checkSanity = TestManager.checkSanity cfg
  runPasses : ∀ passes interleaving m m', env.runPasses passes interleaving m = some (.ok m') →
    ∃ call m₁, call.passes = passes ∧ call.interleaving = interleaving ∧
      step cfg m (.runPasses call) = some m₁ ∧ Run (step cfg) (NoCacheHit cfg) m₁ m' ∧
      m'.phase = .idle

/-- All that the run of these events does to the test cases is to install variants, each of which its
job has made from the test case that it replaces, and which has passed the test. -/
def OnlyCommits (cfg : Config T) (start : TestManager T L) (events : List (Event T L)) : Prop :=
  ∀ before e after, events = before ++ e :: after → ∃ u v,
    runFrom (step cfg) start before = some u ∧ step cfg u e = some v ∧
      (v.disk = u.disk ∨ ∃ cand, Installs u v cand ∧ MadeFrom cfg start u cand before ∧
        Tested cfg u.disk u.currentTestCase cand.testCase)

/-- Test cases without symlinks stay interesting, and commits are all that happens to them. -/
theorem Run.installed (htest : ∀ f, (cfg.test f).2 = f) (hdisk : Interesting cfg files)
    (hplain : ∀ t ∈ cfg.testCases, (files t).Plain) {m : TestManager T L}
    (hrun : Run (step cfg) (NoCacheHit cfg) (.start files t name crashDirs) m) :
    Interesting cfg m.disk ∧ ∃ events,
      runFrom (step cfg) (.start files t name crashDirs) events = some m ∧
        OnlyCommits cfg (.start files t name crashDirs) events := by
  apply And.intro
  · apply hrun.invariant_of_reach (P := fun m => Interesting cfg m.disk) hdisk
    intro u e v hreach hu hmiss hstep
    rcases step_disk hstep with hsame | ⟨t, item, hhit, _⟩ | ⟨cand, hinstalls⟩
    · exact hsame ▸ hu
    · exact absurd hhit (hmiss t item)
    · apply hinstalls.interesting (e := e) htest hreach
      exact fun _ _ t ht _ => plain_of_run htest hplain hreach t ht
  · obtain ⟨events, hevents, hall⟩ := hrun.events
    refine ⟨events, hevents, fun before e after hsplit => ?_⟩
    obtain ⟨u, v, hu, hmiss, hstep⟩ := hall before e after hsplit
    refine ⟨u, v, hu, hstep, ?_⟩
    rcases step_disk hstep with hsame | ⟨t, item, hhit, _⟩ | ⟨cand, hinstalls⟩
    · exact .inl hsame
    · exact absurd hhit (hmiss t item)
    · obtain ⟨_, hmade, _, htested⟩ := hinstalls.sound htest hu
      exact .inr ⟨cand, hinstalls, hmade, htested⟩

namespace Reducer

/-- A reduction that returns was given interesting test cases, and has left interesting ones, which
it has reached by commits of variants that were made and tested in it. -/
theorem reduce_interesting {env : Reducer (TestManager T L) (ScheduledPass L)}
    (hworks : env.WorksOn cfg) (htest : ∀ f, (cfg.test f).2 = f)
    (hsanity : env.skipInterestingnessTestCheck = false)
    (hplain : ∀ t ∈ cfg.testCases, (disk t).Plain) {m : TestManager T L}
    (h : env.reduce rounds group skipInitial (.start disk t name crashDirs) = some (.ok m)) :
    m.phase = .idle ∧ Interesting cfg disk ∧ Interesting cfg m.disk ∧ ∃ events,
      runFrom (step cfg) (.start disk t name crashDirs) events = some m ∧
        OnlyCommits cfg (.start disk t name crashDirs) events := by
  obtain ⟨_, hprepare, h⟩ := andThen_ok.1 h
  have hdisk : Interesting cfg disk := by
    have hcheck := (prepare_ok.1 (Option.some.inj hprepare)).1.resolve_left fun hskip =>
      Bool.false_ne_true (hsanity.symm.trans hskip)
    rw [hworks.checkSanity] at hcheck
    exact TestManager.interesting_of_checkSanity hplain hcheck
  have hkeeps : ∀ passes interleaving u v, env.runPasses passes interleaving u = some (.ok v) →
      (u.phase = .idle ∧ Run (step cfg) (NoCacheHit cfg) (.start disk t name crashDirs) u) →
        v.phase = .idle ∧ Run (step cfg) (NoCacheHit cfg) (.start disk t name crashDirs) v := by
    intro passes interleaving u v huv hu
    obtain ⟨call, u₁, -, -, hcall, hrun, hidle⟩ := hworks.runPasses _ _ _ _ huv
    refine ⟨hidle, (Run.tail hu.2 (fun t item hhit => ?_) hcall).trans hrun⟩
    cases hu.1.symm.trans hhit.phase
  obtain ⟨hidle, hrun⟩ := (reduceCategories_ok h).invariant hkeeps ⟨rfl, .refl⟩
  obtain ⟨hinteresting, hcommits⟩ := hrun.installed htest hdisk hplain
  exact ⟨hidle, hdisk, hinteresting, hcommits⟩

end Reducer

/-- A test for files that are not empty, and one success for each pass. -/
def oneSuccessConfig : Config Unit := { nonemptyConfig with skipAfterNTransforms := some 1 }

/-- What the manager and its workers do in a call with the pass that trims. -/
def trimEvents : List (Event Unit Nat) :=
  firstBatch.tail ++ [.main {}, .main {}, .main {}, .main {}]

/-- A reducer whose calls of `run_passes` take these steps. -/
def trimReducer : Reducer (TestManager Unit Nat) (ScheduledPass Nat) where
  checkPrerequisites _ := true
  tidy := true
  checkSanity := TestManager.checkSanity oneSuccessConfig
  backupTestCases _ := .ok ()
  runPasses passes interleaving m :=
    match runFrom (step oneSuccessConfig) m
        (.runPasses ⟨passes, interleaving, [()]⟩ :: trimEvents) with
    | some m' => some (if m'.phase = .idle then .ok m' else .error .other)
    | none => some (.error .other)
  totalFileSize m := (m.disk ()).getFileSize
  origTotalFileSize := 3
  reachesThreshold _ _ := false

def trimGroup : Dict Str (List (ScheduledPass Nat)) := [("first".toList, [⟨trimPass, []⟩])]

def trimmed : TestManager Unit Nat :=
  (runFrom (step oneSuccessConfig) threeBytes
    (.runPasses ⟨[⟨trimPass, []⟩], false, [()]⟩ :: trimEvents)).getD threeBytes

theorem trimReducer_reduce :
    trimReducer.reduce 1 trimGroup false threeBytes = some (.ok trimmed) := by rfl

theorem trimReducer_works : trimReducer.WorksOn oneSuccessConfig where
  checkSanity := rfl
  runPasses := by
    intro passes interleaving m m' h
    simp only [trimReducer] at h
    split at h
    · rename_i m₂ hrun
      obtain h := Option.some.inj h
      split at h
      · rename_i hidle
        cases h
        obtain ⟨m₁, hcall, hrest⟩ := Option.bind_eq_some_iff.1 hrun
        refine ⟨_, m₁, rfl, rfl, hcall,
          (runFrom_reach hrest).mono fun u e _ t item hhit => ?_, hidle⟩
        cases hhit.enabled
      · cases h
    · cases h

theorem trimReducer_returns (m : TestManager Unit Nat) : trimReducer.CallsReturn m := by
  intro u _ passes interleaving
  simp only [trimReducer]
  split <;> rfl

theorem reduce_ends_trim :
    ∃ n r, (∀ m, n ≤ m → trimReducer.reduce m trimGroup false threeBytes = some r) ∧
      ∀ t, r = .ok t ↔
        (trimReducer.skipInterestingnessTestCheck = true ∨
          trimReducer.checkSanity threeBytes = .ok ()) ∧
        (trimReducer.tidy = true ∨ trimReducer.backupTestCases threeBytes = .ok ()) ∧
        Reducer.Reduces trimReducer false trimGroup threeBytes t :=
  Reducer.reduce_ends (trimReducer_returns threeBytes) trimGroup false

/-- The pass has removed the last byte. -/
theorem reduce_interesting_trim : (trimmed.disk () = .file [1, 2]) ∧ trimmed.phase = .idle ∧
    Interesting oneSuccessConfig (fun _ => .file [1, 2, 3]) ∧
      Interesting oneSuccessConfig trimmed.disk ∧ ∃ events,
        runFrom (step oneSuccessConfig) threeBytes events = some trimmed ∧
          OnlyCommits oneSuccessConfig threeBytes events :=
  ⟨by decide, Reducer.reduce_interesting trimReducer_works (fun _ => rfl) rfl (by decide)
    trimReducer_reduce⟩

end Cvise
