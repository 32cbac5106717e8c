import Cvise.ProcessKiller
import Mathlib.Data.Prod.Lex
import Mathlib.Order.WellFounded
import Mathlib.Order.Monotone.Basic
import Mathlib.Algebra.BigOperators.Group.List.Basic
import Mathlib.Algebra.Order.BigOperators.Group.List
import Mathlib.Algebra.Order.Group.Nat
import Mathlib.Algebra.GroupWithZero.Nat

namespace Cvise
set_option autoImplicit true

/-- Where each step of a kind makes a measure smaller, and no other step makes it larger, there are
no such steps from some time on. -/
theorem eventually_no_step {α : Type} [PartialOrder α] [WellFoundedLT α] (f : Nat → α)
    (own : Nat → Prop) (hle : ∀ n, f (n + 1) ≤ f n) (hlt : ∀ n, own n → f (n + 1) < f n) :
    ∃ n, ∀ m, n ≤ m → ¬ own m := by
  obtain ⟨-, ⟨n, rfl⟩, hleast⟩ :=
    WellFounded.has_min (wellFounded_lt (α := α)) (Set.range f) ⟨f 0, 0, rfl⟩
  refine ⟨n, fun m hm hown => ?_⟩
  have hanti : f m ≤ f n := antitone_nat_of_succ_le hle hm
  exact hleast _ ⟨m + 1, rfl⟩ ((hlt m hown).trans_le hanti)

namespace ProcessKiller

def threadTasks (hardKill : Bool) : KillerThread → Nat
  | .taken t => if t.hardKill = hardKill then 1 else 0
  | .terminating _ _ _ => if hardKill then 0 else 1
  | .pushing _ _ => if hardKill then 0 else 1
  | .killing _ _ => if hardKill then 1 else 0
  | _ => 0

/-- The tasks of a kind that are on the queue or with the thread. -/
def tasks (s : ProcessKiller) (hardKill : Bool) : Nat :=
  s.taskQueue.countP (·.hardKill = hardKill) + threadTasks hardKill s.thread

/-- The time that it is when the thread looks again. -/
def clock (now : Nat) : KillerThread → Nat
  | .waiting (some stop) => max now stop
  | _ => now

/-- How long the tasks on the queue still have to wait. -/
def remaining (s : ProcessKiller) : Nat :=
  (s.taskQueue.map fun t => t.when - clock s.now s.thread).sum

/-- How far the thread is with its round. -/
def phase : KillerThread → Nat ×ₗ Nat
  | .waiting _ => toLex (4, 0)
  | .running => toLex (3, 0)
  | .taken _ => toLex (2, 0)
  | .terminating _ children _ => toLex (1, children.length + 1)
  | .killing _ children => toLex (1, children.length + 1)
  | .pushing _ _ => toLex (0, 0)
  | .exited => toLex (0, 0)

/-- What is left to do for the thread. -/
def work (s : ProcessKiller) : Nat ×ₗ Nat ×ₗ Nat ×ₗ Nat ×ₗ Nat :=
  toLex (s.tasks false, toLex (s.tasks true, toLex (s.remaining, phase s.thread)))

variable {s s' : ProcessKiller}

theorem work_lt_of_soft (h : s'.tasks false < s.tasks false) : s'.work < s.work :=
  Prod.Lex.toLex_lt_toLex.2 (.inl h)

theorem work_lt_of_hard (hsoft : s'.tasks false = s.tasks false)
    (h : s'.tasks true < s.tasks true) : s'.work < s.work :=
  Prod.Lex.toLex_lt_toLex.2 (.inr ⟨hsoft, Prod.Lex.toLex_lt_toLex.2 (.inl h)⟩)

theorem work_lt_of_remaining (htasks : ∀ hard, s'.tasks hard = s.tasks hard)
    (h : s'.remaining < s.remaining) : s'.work < s.work :=
  Prod.Lex.toLex_lt_toLex.2 (.inr ⟨htasks false, Prod.Lex.toLex_lt_toLex.2 (.inr ⟨htasks true,
    Prod.Lex.toLex_lt_toLex.2 (.inl h)⟩)⟩)

theorem work_lt_of_phase (htasks : ∀ hard, s'.tasks hard = s.tasks hard)
    (hremaining : s'.remaining = s.remaining) (h : phase s'.thread < phase s.thread) :
    s'.work < s.work :=
  Prod.Lex.toLex_lt_toLex.2 (.inr ⟨htasks false, Prod.Lex.toLex_lt_toLex.2 (.inr ⟨htasks true,
    Prod.Lex.toLex_lt_toLex.2 (.inr ⟨hremaining, h⟩)⟩)⟩)

theorem work_lt_of_move {next : KillerThread}
    (htasks : ∀ hard, threadTasks hard next = threadTasks hard s.thread)
    (hclock : clock s.now next = clock s.now s.thread) (hphase : phase next < phase s.thread) :
    work { s with thread := next } < s.work := by
  refine work_lt_of_phase (fun hard => ?_) ?_ hphase
  · rw [tasks, tasks, htasks]
  · rw [remaining, remaining, hclock]

theorem work_lt_of_done {next : KillerThread} (kind : Bool)
    (hkind : threadTasks kind next < threadTasks kind s.thread)
    (hsoft : kind = true → threadTasks false next = threadTasks false s.thread) :
    work { s with thread := next } < s.work := by
  cases kind with
  | false => exact work_lt_of_soft (Nat.add_lt_add_left hkind _)
  | true =>
    refine work_lt_of_hard ?_ (Nat.add_lt_add_left hkind _)
    rw [tasks, tasks, hsoft rfl]

theorem phase_lt {a b : Nat × Nat} (h : a.1 < b.1 ∨ a.1 = b.1 ∧ a.2 < b.2) : toLex a < toLex b :=
  Prod.Lex.toLex_lt_toLex.2 h

theorem countP_erase {queue : List ProcessKillerTask} (ht : t ∈ queue) (hard : Bool) :
    queue.countP (·.hardKill = hard) =
      (queue.erase t).countP (·.hardKill = hard) + if t.hardKill = hard then 1 else 0 := by
  rw [(List.perm_cons_erase ht).countP_eq, List.countP_cons]
  simp only [decide_eq_true_eq]

theorem drop_step (ht : t ∈ s.taskQueue) :
    work { s with taskQueue := s.taskQueue.erase t } < s.work := by
  have hcount := countP_erase ht
  cases hkind : t.hardKill with
  | false =>
    have hfewer := hcount false
    rw [hkind, if_pos rfl] at hfewer
    apply work_lt_of_soft
    simp only [tasks]
    omega
  | true =>
    have hsame := hcount false
    have hfewer := hcount true
    rw [hkind, if_neg Bool.false_ne_true.symm] at hsame
    rw [hkind, if_pos rfl] at hfewer
    apply work_lt_of_hard
    · simp only [tasks]
      omega
    · simp only [tasks]
      omega

theorem wait_step (hrun : s.thread = .running) (ht : t ∈ s.taskQueue)
    (hlater : s.now < t.when) : work { s with
      thread := .waiting (some (min t.when (s.now + eventLoopStep))) } < s.work := by
  refine work_lt_of_remaining (fun hard => by rw [tasks, tasks, hrun]; rfl) ?_
  rw [remaining, remaining, hrun]
  have hstop : s.now < min t.when (s.now + eventLoopStep) :=
    lt_min hlater (Nat.lt_add_of_pos_right (by decide))
  have hle : min t.when (s.now + eventLoopStep) ≤ t.when := min_le_left _ _
  apply List.sum_lt_sum
  · intro u hu
    simp only [clock]
    omega
  · refine ⟨t, ht, ?_⟩
    simp only [clock]
    omega

theorem take_step (hrun : s.thread = .running) (ht : t ∈ s.taskQueue) (hdue : t.when ≤ s.now) :
    work { s with taskQueue := s.taskQueue.erase t, thread := .taken t } < s.work := by
  refine work_lt_of_phase (fun hard => ?_) ?_ ?_
  · rw [tasks, tasks, countP_erase ht hard, hrun]
    rfl
  · rw [remaining, remaining, hrun]
    have hsum := List.sum_map_erase (fun u => u.when - clock s.now .running) ht
    have hzero : t.when - clock s.now .running = 0 := Nat.sub_eq_zero_of_le hdue
    rw [hzero, Nat.zero_add] at hsum
    exact hsum
  · rw [hrun]
    exact phase_lt (.inl (by decide))

theorem push_step (hpush : s.thread = .pushing w aliveChildren) : work { s with
      taskQueue := aliveChildren.map (fun c => ⟨true, w, c⟩) ++ s.taskQueue
      thread := .running } < s.work := by
  apply work_lt_of_soft
  have hnone : (aliveChildren.map fun c => (⟨true, w, c⟩ : ProcessKillerTask)).countP
      (·.hardKill = false) = 0 := by
    rw [List.countP_eq_zero]
    intro u hu
    obtain ⟨c, -, rfl⟩ := List.mem_map.1 hu
    simp
  rw [tasks, tasks, List.countP_append, hnone, hpush]
  simp only [threadTasks, Bool.false_eq_true, if_false]
  omega

theorem thread_step (h : Steps s true s') (hdown : s.shutDown = true) : s'.work < s.work := by
  cases h with
  | exit hrun =>
    exact work_lt_of_move (fun hard => by rw [hrun]; rfl) (by rw [hrun]; rfl)
      (by rw [hrun]; exact phase_lt (.inl (by decide)))
  | sleep hrun hempty hup =>
    rw [hup] at hdown
    cases hdown
  | drop hrun ht hgone => exact drop_step ht
  | wait hrun ht hleast hlater => exact wait_step hrun ht hlater
  | take hrun ht hdue => exact take_step hrun ht hdue
  | wake hwait hle =>
    exact work_lt_of_move (fun hard => by rw [hwait]; rfl)
      (by rw [hwait]; exact (Nat.max_eq_left hle).symm)
      (by rw [hwait]; exact phase_lt (.inl (by decide)))
  | lost htaken hgone =>
    rename_i t
    refine work_lt_of_done t.hardKill ?_ fun hhard => ?_
    · simp only [htaken, threadTasks, if_true]
      exact Nat.one_pos
    · simp only [htaken, threadTasks, hhard, Bool.true_eq_false, if_false]
  | startTerminating htaken hsoft =>
    refine work_lt_of_move (fun hard => ?_) (by rw [htaken]; rfl)
      (by rw [htaken]; exact phase_lt (.inl Nat.one_lt_two))
    rw [htaken, threadTasks, threadTasks, hsoft]
    cases hard <;> rfl
  | startKilling htaken hhard =>
    refine work_lt_of_move (fun hard => ?_) (by rw [htaken]; rfl)
      (by rw [htaken]; exact phase_lt (.inl Nat.one_lt_two))
    rw [htaken, threadTasks, threadTasks, hhard]
    cases hard <;> rfl
  | terminate hterm hchild =>
    refine work_lt_of_phase (fun hard => by rw [tasks, tasks, hterm]; rfl)
      (by rw [remaining, remaining, hterm]; rfl) ?_
    rw [hterm]
    exact phase_lt (.inr ⟨rfl, Nat.lt_succ_self _⟩)
  | terminateGone hterm hchild =>
    refine work_lt_of_move (fun hard => by rw [hterm]; rfl) (by rw [hterm]; rfl) ?_
    rw [hterm]
    exact phase_lt (.inr ⟨rfl, Nat.lt_succ_self _⟩)
  | noneAlive hterm =>
    refine work_lt_of_done false ?_ fun he => by cases he
    rw [hterm]
    exact Nat.one_pos
  | schedule hterm =>
    exact work_lt_of_move (fun hard => by rw [hterm]; rfl) (by rw [hterm]; rfl)
      (by rw [hterm]; exact phase_lt (.inl Nat.zero_lt_one))
  | push hpush => exact push_step hpush
  | kill hkill hchild =>
    refine work_lt_of_phase (fun hard => by rw [tasks, tasks, hkill]; rfl)
      (by rw [remaining, remaining, hkill]; rfl) ?_
    rw [hkill]
    exact phase_lt (.inr ⟨rfl, Nat.lt_succ_self _⟩)
  | killGone hkill hchild =>
    refine work_lt_of_move (fun hard => by rw [hkill]; rfl) (by rw [hkill]; rfl) ?_
    rw [hkill]
    exact phase_lt (.inr ⟨rfl, Nat.lt_succ_self _⟩)
  | killedAll hkill =>
    refine work_lt_of_done true ?_ fun _ => by rw [hkill]; rfl
    rw [hkill]
    exact Nat.one_pos

/-- After the shutdown, the other steps leave the thread where it is and with no more to do. -/
theorem other_step (h : Steps s false s') (hdown : s.shutDown = true) :
    s'.work ≤ s.work ∧ s'.thread = s.thread ∧ s.now ≤ s'.now := by
  cases h with
  | none => exact ⟨le_rfl, rfl, le_rfl⟩
  | request hup =>
    rw [hup] at hdown
    cases hdown
  | shutDown hup =>
    rw [hup] at hdown
    cases hdown
  | spawn hproc => exact ⟨le_rfl, rfl, le_rfl⟩
  | die => exact ⟨le_rfl, rfl, le_rfl⟩
  | tick =>
    rename_i time
    refine ⟨?_, rfl, Nat.le_add_right _ _⟩
    have hclock : clock s.now s.thread ≤ clock (s.now + time) s.thread := by
      cases s.thread with
      | waiting stop =>
        cases stop with
        | none => exact Nat.le_add_right _ _
        | some stop => exact max_le_max_right _ (Nat.le_add_right _ _)
      | _ => exact Nat.le_add_right _ _
    have hle : remaining { s with now := s.now + time } ≤ s.remaining :=
      List.sum_le_sum fun t _ => Nat.sub_le_sub_left hclock _
    rcases hle.lt_or_eq with hlt | heq
    · have hwork : work { s with now := s.now + time } < s.work :=
        work_lt_of_remaining (fun _ => rfl) hlt
      exact hwork.le
    · rw [work, work, heq]
      exact le_rfl

theorem shutDown_stays (h : Steps s own s') (hdown : s.shutDown = true) : s'.shutDown = true := by
  cases h with
  | request hup =>
    rw [hup] at hdown
    cases hdown
  | shutDown hup =>
    rw [hup] at hdown
    cases hdown
  | _ => exact hdown

def CanAct (s : ProcessKiller) : Prop := ∃ e, Event.ofThread e = true ∧ (step s e).isSome

/-- A run after the shutdown, in which time goes on and the thread is not held up for ever. -/
structure FairRun (states : Nat → ProcessKiller) (events : Nat → Event) : Prop where
  start : ∃ procs, Reach step (create procs) (states 0)
  down : (states 0).shutDown = true
  steps : ∀ n, step (states n) (events n) = some (states (n + 1))
  time : ∀ bound, ∃ n, bound ≤ (states n).now
  fair : ∀ n, ∃ m, n ≤ m ∧ ((events m).ofThread = true ∨ ¬ CanAct (states m))

theorem notAfter_iff {t u : ProcessKillerTask} :
    t.NotAfter u ↔ toLex (t.hardKill, t.when) ≤ toLex (u.hardKill, u.when) := by
  rw [Prod.Lex.toLex_le_toLex, ProcessKillerTask.NotAfter]

theorem exists_least (hne : s.taskQueue ≠ []) :
    ∃ t ∈ s.taskQueue, ∀ u ∈ s.taskQueue, t.NotAfter u := by
  simp only [notAfter_iff]
  generalize s.taskQueue = queue at hne ⊢
  induction queue with
  | nil => exact absurd rfl hne
  | cons t queue ih =>
    by_cases hnil : queue = []
    · subst hnil
      exact ⟨t, List.mem_cons_self, List.forall_mem_singleton.2 le_rfl⟩
    · obtain ⟨u, hu, hleast⟩ := ih hnil
      rcases le_total (toLex (t.hardKill, t.when)) (toLex (u.hardKill, u.when)) with htu | hut
      · exact ⟨t, List.mem_cons_self,
          List.forall_mem_cons.2 ⟨le_rfl, fun v hv => htu.trans (hleast v hv)⟩⟩
      · exact ⟨u, List.mem_cons_of_mem _ hu, List.forall_mem_cons.2 ⟨hut, hleast⟩⟩

/-- At the head of its loop the thread can always go on, and so it can with a task. -/
theorem canAct_of_running (h : s.thread = .running) : CanAct s := by
  by_cases hempty : s.taskQueue = []
  · refine ⟨.look none, rfl, ?_⟩
    simp only [step, if_pos h, look, hempty]
    rfl
  · obtain ⟨t, ht, hleast⟩ := exists_least hempty
    refine ⟨.look (some t), rfl, ?_⟩
    simp only [step, if_pos h, look, if_neg (not_not.2 (And.intro ht hleast))]
    split
    · rfl
    · split <;> rfl

theorem canAct_of_act (h : (s.act []).isSome) : CanAct s := ⟨.act [], rfl, h⟩

/-- After the shutdown only a thread that waits for the time of a task, or is gone, cannot go on. -/
theorem canAct_or (hawake : Awake s) (hdown : s.shutDown = true) : CanAct s ∨
    s.thread = .exited ∨ ∃ stop, s.thread = .waiting (some stop) := by
  cases hthread : s.thread with
  | running => exact .inl (canAct_of_running hthread)
  | waiting stop =>
    cases stop with
    | none =>
      have hup := (hawake.idle hthread).2
      rw [hup] at hdown
      cases hdown
    | some stop => exact .inr (.inr ⟨stop, rfl⟩)
  | exited => exact .inr (.inl rfl)
  | taken t => exact .inl (canAct_of_act (by simp only [act, hthread]; rfl))
  | pushing w aliveChildren => exact .inl (canAct_of_act (by simp only [act, hthread]; rfl))
  | terminating root children aliveChildren =>
    refine .inl (canAct_of_act ?_)
    cases children with
    | nil =>
      simp only [act, hthread]
      split <;> rfl
    | cons child children =>
      simp only [act, hthread]
      split <;> rfl
  | killing root children =>
    refine .inl (canAct_of_act ?_)
    cases children with
    | nil =>
      simp only [act, hthread]
      rfl
    | cons child children =>
      simp only [act, hthread]
      split <;> rfl

theorem canAct_of_waiting (hthread : s.thread = .waiting (some stop)) (hle : stop ≤ s.now) :
    CanAct s := by
  refine ⟨.wake, rfl, ?_⟩
  simp only [step, hthread, if_pos hle]
  rfl

section fair

variable {states : Nat → ProcessKiller} {events : Nat → Event}

theorem now_le (h : Steps s own s') : s.now ≤ s'.now := by
  cases h with
  | request hup =>
    obtain ⟨thread, hnotify, -⟩ := notify_eq { s with
      taskQueue := ⟨false, 0, _⟩ :: s.taskQueue
      requested := _ :: s.requested }
    rw [killProcessTree, hnotify]
  | shutDown hup =>
    obtain ⟨thread, hnotify, -⟩ := notify_eq { s with shutDown := true }
    rw [hnotify]
  | tick => exact Nat.le_add_right _ _
  | _ => exact le_rfl

theorem FairRun.reached (h : FairRun states events) (n : Nat) :
    (∃ procs, Reach step (create procs) (states n)) ∧ (states n).shutDown = true := by
  induction n with
  | zero => exact ⟨h.start, h.down⟩
  | succ n ih =>
    obtain ⟨⟨procs, hreach⟩, hdown⟩ := ih
    exact ⟨⟨procs, .tail hreach trivial (h.steps n)⟩, shutDown_stays (step_cases (h.steps n)) hdown⟩

/-- From some time on the thread takes no step any more. -/
theorem FairRun.settles (h : FairRun states events) :
    ∃ n, ∀ m, n ≤ m → (events m).ofThread = false := by
  have hstep (n : Nat) := step_cases (h.steps n)
  have hlt (n : Nat) (hown : (events n).ofThread = true) :
      (states (n + 1)).work < (states n).work := by
    have hs := hstep n
    rw [hown] at hs
    exact thread_step hs (h.reached n).2
  have hle (n : Nat) : (states (n + 1)).work ≤ (states n).work := by
    cases hown : (events n).ofThread with
    | true => exact (hlt n hown).le
    | false =>
      have hs := hstep n
      rw [hown] at hs
      exact (other_step hs (h.reached n).2).1
  obtain ⟨n, hn⟩ := eventually_no_step (fun n => (states n).work)
    (fun n => (events n).ofThread = true) hle hlt
  exact ⟨n, fun m hm => Bool.eq_false_iff.2 (hn m hm)⟩

/-- After the shutdown the thread comes to its end, and then each process that the killer was asked
to kill and each one that it has terminated has exited or was killed. -/
theorem killer_exits (h : FairRun states events) : ∃ n, (states n).thread = .exited ∧
    ∀ p, p ∈ (states n).requested ∨ Got (states n).terminated p →
      p ∉ (states n).alive ∨ Got (states n).killed p := by
  obtain ⟨n, hn⟩ := h.settles
  have hnow : Monotone fun n => (states n).now :=
    monotone_nat_of_le_succ fun k => now_le (step_cases (h.steps k))
  have hthread (m : Nat) (hm : n ≤ m) : (states m).thread = (states n).thread := by
    induction m, hm using Nat.le_induction with
    | base => rfl
    | succ m hm ih =>
      have hs := step_cases (h.steps m)
      rw [hn m hm] at hs
      exact (other_step hs (h.reached m).2).2.1.trans ih
  -- From the time `n` on, the thread is held up again and again where it is.
  have hheld (k : Nat) (hk : n ≤ k) : ∃ m, k ≤ m ∧ ¬ CanAct (states m) := by
    obtain ⟨m, hm, hown | hheld⟩ := h.fair k
    · rw [hn m (hk.trans hm)] at hown
      cases hown
    · exact ⟨m, hm, hheld⟩
  obtain ⟨m, hm, hstuck⟩ := hheld n le_rfl
  obtain ⟨⟨procs, hreach⟩, hdown⟩ := h.reached m
  obtain ⟨-, -, hawake⟩ := invariants hreach
  rcases canAct_or hawake hdown with hcan | hgone | ⟨stop, hwait⟩
  · exact absurd hcan hstuck
  · exact ⟨m, hgone, fun p hp => nothing_left hreach hgone hp⟩
  · obtain ⟨q, hq⟩ := h.time stop
    obtain ⟨l, hl, hstuck'⟩ := hheld (max m q) (hm.trans (le_max_left _ _))
    have hwait' : (states l).thread = .waiting (some stop) := by
      rw [hthread l (hm.trans ((le_max_left _ _).trans hl)), ← hthread m hm]
      exact hwait
    have hlate : stop ≤ (states l).now := hq.trans (hnow ((le_max_right _ _).trans hl))
    exact absurd (canAct_of_waiting hwait' hlate) hstuck'

end fair

/-- The killer is shut down while it has to kill a process and its child. The child exits when it is
terminated, and the process only when it is killed. -/
def stubbornStart : ProcessKiller :=
  notify { killProcessTree (create [1, 2]) 1 with shutDown := true }

def stubbornEvents (n : Nat) : Event :=
  [.look (some ⟨false, 0, 1⟩), .act [2], .act [], .act [], .act [], .act [], .die 2,
    .look (some ⟨true, 3000, 2⟩), .look (some ⟨true, 3000, 1⟩), .tick 1000, .wake,
    .look (some ⟨true, 3000, 1⟩), .tick 2000, .wake, .look (some ⟨true, 3000, 1⟩), .act [], .act [],
    .act [], .look none].getD n (.tick 1)

def stubbornStates : Nat → ProcessKiller
  | 0 => stubbornStart
  | n + 1 => (step (stubbornStates n) (stubbornEvents n)).getD (stubbornStates n)

theorem not_canAct_of_exited (h : s.thread = .exited) : ¬ CanAct s := by
  rintro ⟨e, hown, he⟩
  cases e with
  | look top => simp [step, h] at he
  | wake => simp [step, h] at he
  | act descendants => simp [step, act, h] at he
  | _ => cases hown

theorem stubbornEvents_tick (h : 19 ≤ n) : stubbornEvents n = .tick 1 := by
  rw [stubbornEvents, List.getD_eq_getElem?_getD, List.getElem?_eq_none h, Option.getD_none]

theorem stubborn_step (n : Nat) :
    step (stubbornStates n) (stubbornEvents n) = some (stubbornStates (n + 1)) := by
  have hsome : (step (stubbornStates n) (stubbornEvents n)).isSome := by
    by_cases hn : n < 19
    · have hrun : ∀ k < 19, (step (stubbornStates k) (stubbornEvents k)).isSome := by decide
      exact hrun n hn
    · rw [stubbornEvents_tick (Nat.le_of_not_lt hn)]
      rfl
  obtain ⟨s, hs⟩ := Option.isSome_iff_exists.1 hsome
  rw [stubbornStates, hs]
  rfl

theorem stubborn_end (k : Nat) :
    (stubbornStates (19 + k)).thread = .exited ∧ (stubbornStates (19 + k)).now = 3000 + k := by
  induction k with
  | zero => decide
  | succ k ih =>
    have hstep := stubborn_step (19 + k)
    rw [stubbornEvents_tick (Nat.le_add_right _ _)] at hstep
    rw [← Nat.add_assoc, ← Option.some.inj hstep]
    exact ⟨ih.1, congrArg (· + 1) ih.2⟩

theorem stubborn_fairRun : FairRun stubbornStates stubbornEvents where
  start := ⟨[1, 2], .tail (.tail .refl trivial (show step (create [1, 2]) (.request 1) = _ from rfl))
    trivial (show step _ .shutDown = _ from rfl)⟩
  down := rfl
  steps := stubborn_step
  time bound := ⟨19 + bound, by rw [(stubborn_end bound).2]; exact Nat.le_add_left _ _⟩
  fair n := ⟨19 + n, Nat.le_add_left _ _, .inr (not_canAct_of_exited (stubborn_end n).1)⟩

theorem killer_exits_stubborn : (stubbornStates 0).taskQueue = [⟨false, 0, 1⟩] ∧
    (stubbornStates 19).alive = [1] ∧ (stubbornStates 19).killed = [(1, 1, 3000)] ∧
    ∃ n, (stubbornStates n).thread = .exited ∧
      ∀ p, p ∈ (stubbornStates n).requested ∨ Got (stubbornStates n).terminated p →
        p ∉ (stubbornStates n).alive ∨ Got (stubbornStates n).killed p :=
  ⟨rfl, by decide, by decide, killer_exits stubborn_fairRun⟩

end ProcessKiller

end Cvise
