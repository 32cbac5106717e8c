import Cvise.Transition
import Mathlib.Data.Nat.Basic

namespace Cvise
set_option autoImplicit true

/-- A process; unlike a PID it is not used again. -/
abbrev Proc := Nat

structure ProcessKillerTask where
  /-- Whether to `kill()`, as opposed to `terminate()`. -/
  hardKill : Bool
  /-- Milliseconds, in terms of the monotonic timer. -/
  when : Nat
  proc : Proc
deriving DecidableEq

/-- The order of the heap, which does not compare the processes. -/
def ProcessKillerTask.NotAfter (t u : ProcessKillerTask) : Prop :=
  t.hardKill < u.hardKill ∨ t.hardKill = u.hardKill ∧ t.when ≤ u.when

instance (t u : ProcessKillerTask) : Decidable (t.NotAfter u) :=
  inferInstanceAs (Decidable (_ ∨ _))

/-- Where the thread of a `ProcessKiller` is. -/
inductive KillerThread where
  /-- At the head of the loop. -/
  | running
  /-- In `wait`, with the time when it ends. -/
  | waiting (stop : Option Nat)
  /-- With a task from the queue, before it asks for the children of the process. -/
  | taken (t : ProcessKillerTask)
  | terminating (root : Proc) (children aliveChildren : List Proc)
  /-- Before it puts the tasks for the processes on the queue that have not been gone. -/
  | pushing (when : Nat) (aliveChildren : List Proc)
  | killing (root : Proc) (children : List Proc)
  | exited
deriving DecidableEq

/-- `ProcessKiller`, the processes of the system, and what has been done to them. -/
structure ProcessKiller where
  now : Nat := 0
  alive : List Proc
  /-- All processes that there have been. -/
  known : List Proc
  taskQueue : List ProcessKillerTask := []
  shutDown : Bool := false
  thread : KillerThread := .running
  requested : List Proc := []
  /-- Processes that got the signal, with the root of the tree to be terminated, and when. -/
  terminated : List (Proc × Proc × Nat) := []
  killed : List (Proc × Proc × Nat) := []

namespace ProcessKiller

def termTimeout : Nat := 3000
def eventLoopStep : Nat := 1000

/-- `_condition.notify()`. -/
def notify (s : ProcessKiller) : ProcessKiller :=
  match s.thread with
  | .waiting _ => { s with thread := .running }
  | _ => s

/-- `kill_process_tree`, for a PID that there is a process with. -/
def killProcessTree (s : ProcessKiller) (proc : Proc) : ProcessKiller :=
  notify { s with
    taskQueue := ⟨false, 0, proc⟩ :: s.taskQueue
    requested := proc :: s.requested }

/-- One round of `_thread_main` with the lock held. The task is the one on top of the heap. -/
def look (s : ProcessKiller) : Option ProcessKillerTask → Option ProcessKiller
  | none =>
    if s.taskQueue ≠ [] then none
    else some { s with thread := if s.shutDown then .exited else .waiting none }
  | some t =>
    if ¬ (t ∈ s.taskQueue ∧ ∀ u ∈ s.taskQueue, t.NotAfter u) then none
    else if t.proc ∉ s.alive then some { s with taskQueue := s.taskQueue.erase t }
    else if s.now < t.when then
      some { s with thread := .waiting (some (min t.when (s.now + eventLoopStep))) }
    else some { s with taskQueue := s.taskQueue.erase t, thread := .taken t }

/-- The start of `_do_terminate` and of `_do_hard_kill`, with what the system lists. -/
def listChildren (s : ProcessKiller) (t : ProcessKillerTask) (descendants : List Proc) :
    ProcessKiller :=
  if t.proc ∉ s.alive then { s with thread := .running }
  else if t.hardKill then { s with thread := .killing t.proc (descendants ++ [t.proc]) }
  else { s with thread := .terminating t.proc (descendants ++ [t.proc]) [] }

/-- What the thread does without the lock. -/
def act (s : ProcessKiller) (descendants : List Proc) : Option ProcessKiller :=
  match s.thread with
  | .taken t => some (listChildren s t descendants)
  | .terminating root (child :: children) aliveChildren =>
    if child ∈ s.alive then
      some { s with
        thread := .terminating root children (aliveChildren ++ [child])
        terminated := (child, root, s.now) :: s.terminated }
    else some { s with thread := .terminating root children aliveChildren }
  | .terminating _ [] aliveChildren =>
    if aliveChildren = [] then some { s with thread := .running }
    else some { s with thread := .pushing (s.now + termTimeout) aliveChildren }
  | .pushing w aliveChildren =>
    some { s with
      taskQueue := aliveChildren.map (fun c => ⟨true, w, c⟩) ++ s.taskQueue
      thread := .running }
  | .killing root (child :: children) =>
    if child ∈ s.alive then
      some { s with
        thread := .killing root children
        killed := (child, root, s.now) :: s.killed }
    else some { s with thread := .killing root children }
  | .killing _ [] => some { s with thread := .running }
  | _ => none

inductive Event where
  /-- `kill_process_tree`. -/
  | request (proc : Proc)
  /-- `__exit__`. -/
  | shutDown
  | spawn (proc : Proc)
  | die (proc : Proc)
  | tick (time : Nat)
  /-- The steps of the thread. -/
  | look (top : Option ProcessKillerTask)
  | wake
  | act (descendants : List Proc)

/-- The monitor has stopped asking for processes to be killed before it shuts its killer down, which
it does once. -/
def step (s : ProcessKiller) : Event → Option ProcessKiller
  | .request proc =>
    if s.shutDown then none else if proc ∈ s.alive then some (s.killProcessTree proc) else some s
  | .shutDown => if s.shutDown then none else some (notify { s with shutDown := true })
  | .spawn proc =>
    if proc ∈ s.known then none
    else some { s with alive := proc :: s.alive, known := proc :: s.known }
  | .die proc => if proc ∈ s.alive then some { s with alive := s.alive.filter (· ≠ proc) } else none
  | .tick time => some { s with now := s.now + time }
  | .look top => if s.thread = .running then s.look top else none
  | .wake =>
    match s.thread with
    | .waiting (some stop) => if stop ≤ s.now then some { s with thread := .running } else none
    | _ => none
  | .act descendants => s.act descendants

/-- Whether it is the thread's step. -/
def Event.ofThread : Event → Bool
  | .look _ => true
  | .wake => true
  | .act _ => true
  | _ => false

/-- What a step does, which is one of the thread or not. -/
inductive Steps (s : ProcessKiller) : Bool → ProcessKiller → Prop
  | none : Steps s false s
  | request (hup : s.shutDown = false) (h : proc ∈ s.alive) : Steps s false (s.killProcessTree proc)
  | shutDown (hup : s.shutDown = false) : Steps s false (notify { s with shutDown := true })
  | spawn (h : proc ∉ s.known) :
      Steps s false { s with alive := proc :: s.alive, known := proc :: s.known }
  | die : Steps s false { s with alive := s.alive.filter (· ≠ proc) }
  | tick : Steps s false { s with now := s.now + time }
  | exit (h : s.thread = .running) (hempty : s.taskQueue = []) (hdown : s.shutDown = true) :
      Steps s true { s with thread := .exited }
  | sleep (h : s.thread = .running) (hempty : s.taskQueue = []) (hup : s.shutDown = false) :
      Steps s true { s with thread := .waiting none }
  | drop (h : s.thread = .running) (ht : t ∈ s.taskQueue) (hgone : t.proc ∉ s.alive) :
      Steps s true { s with taskQueue := s.taskQueue.erase t }
  | wait (h : s.thread = .running) (ht : t ∈ s.taskQueue) (hleast : ∀ u ∈ s.taskQueue, t.NotAfter u)
      (hlater : s.now < t.when) :
      Steps s true { s with thread := .waiting (some (min t.when (s.now + eventLoopStep))) }
  | take (h : s.thread = .running) (ht : t ∈ s.taskQueue) (hdue : t.when ≤ s.now) :
      Steps s true { s with taskQueue := s.taskQueue.erase t, thread := .taken t }
  | wake (h : s.thread = .waiting (some stop)) (hle : stop ≤ s.now) :
      Steps s true { s with thread := .running }
  | lost (h : s.thread = .taken t) (hgone : t.proc ∉ s.alive) :
      Steps s true { s with thread := .running }
  | startTerminating (h : s.thread = .taken t) (hsoft : t.hardKill = false) :
      Steps s true { s with thread := .terminating t.proc (descendants ++ [t.proc]) [] }
  | startKilling (h : s.thread = .taken t) (hhard : t.hardKill = true) :
      Steps s true { s with thread := .killing t.proc (descendants ++ [t.proc]) }
  | terminate (h : s.thread = .terminating root (child :: children) aliveChildren)
      (hchild : child ∈ s.alive) : Steps s true { s with
        thread := .terminating root children (aliveChildren ++ [child])
        terminated := (child, root, s.now) :: s.terminated }
  | terminateGone (h : s.thread = .terminating root (child :: children) aliveChildren)
      (hchild : child ∉ s.alive) :
      Steps s true { s with thread := .terminating root children aliveChildren }
  | noneAlive (h : s.thread = .terminating root [] []) : Steps s true { s with thread := .running }
  | schedule (h : s.thread = .terminating root [] aliveChildren) :
      Steps s true { s with thread := .pushing (s.now + termTimeout) aliveChildren }
  | push (h : s.thread = .pushing w aliveChildren) : Steps s true { s with
      taskQueue := aliveChildren.map (fun c => ⟨true, w, c⟩) ++ s.taskQueue
      thread := .running }
  | kill (h : s.thread = .killing root (child :: children)) (hchild : child ∈ s.alive) :
      Steps s true { s with
        thread := .killing root children
        killed := (child, root, s.now) :: s.killed }
  | killGone (h : s.thread = .killing root (child :: children)) (hchild : child ∉ s.alive) :
      Steps s true { s with thread := .killing root children }
  | killedAll (h : s.thread = .killing root []) : Steps s true { s with thread := .running }

theorem look_cases {s s' : ProcessKiller} (hrun : s.thread = .running)
    (h : s.look top = some s') : Steps s true s' := by
  rw [look.eq_def] at h
  cases top with
  | none =>
    simp only at h
    split at h
    · cases h
    · rename_i hempty
      obtain rfl := Option.some.inj h
      by_cases hdown : s.shutDown = true
      · rw [if_pos hdown]
        exact .exit hrun (not_not.1 hempty) hdown
      · rw [if_neg hdown]
        exact .sleep hrun (not_not.1 hempty) (Bool.eq_false_iff.2 hdown)
  | some t =>
    simp only at h
    split at h
    · cases h
    · rename_i htop
      obtain ⟨ht, hleast⟩ := not_not.1 htop
      split at h
      · rename_i hgone
        obtain rfl := Option.some.inj h
        exact .drop hrun ht hgone
      · split at h
        · rename_i hlater
          obtain rfl := Option.some.inj h
          exact .wait hrun ht hleast hlater
        · rename_i hdue
          obtain rfl := Option.some.inj h
          exact .take hrun ht (Nat.le_of_not_lt hdue)

theorem act_cases {s s' : ProcessKiller} (h : s.act descendants = some s') : Steps s true s' := by
  rw [act] at h
  split at h
  · rename_i t ht
    obtain rfl := Option.some.inj h
    rw [listChildren]
    split
    · rename_i hgone
      exact .lost ht hgone
    · split
      · rename_i hhard
        exact .startKilling ht hhard
      · rename_i hsoft
        exact .startTerminating ht (Bool.eq_false_iff.2 hsoft)
  · rename_i root child children aliveChildren ht
    split at h
    · rename_i hchild
      obtain rfl := Option.some.inj h
      exact .terminate ht hchild
    · rename_i hchild
      obtain rfl := Option.some.inj h
      exact .terminateGone ht hchild
  · rename_i root aliveChildren ht
    split at h
    · rename_i hnone
      subst hnone
      obtain rfl := Option.some.inj h
      exact .noneAlive ht
    · obtain rfl := Option.some.inj h
      exact .schedule ht
  · rename_i w aliveChildren ht
    obtain rfl := Option.some.inj h
    exact .push ht
  · rename_i root child children ht
    split at h
    · rename_i hchild
      obtain rfl := Option.some.inj h
      exact .kill ht hchild
    · rename_i hchild
      obtain rfl := Option.some.inj h
      exact .killGone ht hchild
  · rename_i root ht
    obtain rfl := Option.some.inj h
    exact .killedAll ht
  · cases h

theorem step_cases {s s' : ProcessKiller} (h : s.step e = some s') :
    Steps s e.ofThread s' := by
  cases e with
  | request proc =>
    simp only [step] at h
    split at h
    · cases h
    · rename_i hup
      split at h
      · rename_i hproc
        obtain rfl := Option.some.inj h
        exact .request (Bool.eq_false_iff.2 hup) hproc
      · obtain rfl := Option.some.inj h
        exact .none
  | shutDown =>
    simp only [step] at h
    split at h
    · cases h
    · rename_i hup
      obtain rfl := Option.some.inj h
      exact .shutDown (Bool.eq_false_iff.2 hup)
  | spawn proc =>
    simp only [step] at h
    split at h
    · cases h
    · rename_i hproc
      obtain rfl := Option.some.inj h
      exact .spawn hproc
  | die proc =>
    simp only [step] at h
    split at h
    · obtain rfl := Option.some.inj h
      exact .die
    · cases h
  | tick time =>
    obtain rfl := Option.some.inj h
    exact .tick
  | look top =>
    simp only [step] at h
    split at h
    · rename_i hrun
      exact look_cases hrun h
    · cases h
  | wake =>
    simp only [step] at h
    split at h
    · rename_i stop hwait
      split at h
      · rename_i hle
        obtain rfl := Option.some.inj h
        exact .wake hwait hle
      · cases h
    · cases h
  | act descendants => exact act_cases h

def toTerminate : KillerThread → List Proc
  | .taken t => if t.hardKill then [] else [t.proc]
  | .terminating _ children _ => children
  | _ => []

/-- The processes that a thread is going to kill, or to have killed later. -/
def toKill : KillerThread → List Proc
  | .taken t => if t.hardKill then [t.proc] else []
  | .terminating _ _ aliveChildren => aliveChildren
  | .pushing _ aliveChildren => aliveChildren
  | .killing _ children => children
  | _ => []

/-- The process is waiting for the signal. -/
def Pending (s : ProcessKiller) (hardKill : Bool) (p : Proc) : Prop :=
  (∃ t ∈ s.taskQueue, t.hardKill = hardKill ∧ t.proc = p) ∨
    p ∈ if hardKill then toKill s.thread else toTerminate s.thread

def Got (signals : List (Proc × Proc × Nat)) (p : Proc) : Prop := ∃ x ∈ signals, x.1 = p

/-- No request and no process that was terminated is forgotten while the process is alive. -/
structure Covered (s : ProcessKiller) : Prop where
  alive : ∀ p ∈ s.alive, p ∈ s.known
  requested : ∀ p ∈ s.requested, p ∈ s.known ∧
    (p ∈ s.alive → s.Pending false p ∨ Got s.terminated p)
  terminated : ∀ p, Got s.terminated p → p ∈ s.known ∧
    (p ∈ s.alive → s.Pending true p ∨ Got s.killed p)

variable {s s' : ProcessKiller}

/-- What a step may change. -/
theorem Covered.mono (h : Covered s) (hknown : s.known ⊆ s'.known)
    (halive : ∀ p ∈ s'.alive, p ∈ s.alive ∨ p ∉ s.known ∧ p ∈ s'.known)
    (hrequested : s'.requested = s.requested)
    (hterminated : ∀ p, Got s'.terminated p → Got s.terminated p ∨
      p ∈ s'.known ∧ s'.Pending true p)
    (hsoft : ∀ p ∈ s'.alive, s.Pending false p ∨ Got s.terminated p →
      s'.Pending false p ∨ Got s'.terminated p)
    (hhard : ∀ p ∈ s'.alive, s.Pending true p ∨ Got s.killed p →
      s'.Pending true p ∨ Got s'.killed p) : Covered s' where
  alive := by
    intro p hp
    rcases halive p hp with hp | hp
    · exact hknown (h.alive p hp)
    · exact hp.2
  requested := by
    intro p hp
    rw [hrequested] at hp
    obtain ⟨hk, hpending⟩ := h.requested p hp
    refine ⟨hknown hk, fun hp' => ?_⟩
    rcases halive p hp' with hold | hnew
    · exact hsoft p hp' (hpending hold)
    · exact absurd hk hnew.1
  terminated := by
    intro p hp
    rcases hterminated p hp with hp | hp
    · obtain ⟨hk, hpending⟩ := h.terminated p hp
      refine ⟨hknown hk, fun hp' => ?_⟩
      rcases halive p hp' with hold | hnew
      · exact hhard p hp' (hpending hold)
      · exact absurd hk hnew.1
    · exact ⟨hp.1, fun _ => .inl hp.2⟩

/-- Steps that do not send signals. -/
theorem Covered.quiet (h : Covered s) (hknown : s.known ⊆ s'.known)
    (halive : ∀ p ∈ s'.alive, p ∈ s.alive ∨ p ∉ s.known ∧ p ∈ s'.known)
    (hrequested : s'.requested = s.requested) (hterminated : s'.terminated = s.terminated)
    (hkilled : s'.killed = s.killed)
    (hpending : ∀ hard, ∀ p ∈ s'.alive, s.Pending hard p → s'.Pending hard p) : Covered s' := by
  refine h.mono hknown halive hrequested (fun p hp => .inl (hterminated ▸ hp)) ?_ ?_
  · rintro p hp (hpend | hgot)
    · exact .inl (hpending false p hp hpend)
    · exact .inr (hterminated ▸ hgot)
  · rintro p hp (hpend | hgot)
    · exact .inl (hpending true p hp hpend)
    · exact .inr (hkilled ▸ hgot)

theorem notify_eq (s : ProcessKiller) : ∃ thread, s.notify = { s with thread := thread } ∧
    toTerminate thread = toTerminate s.thread ∧ toKill thread = toKill s.thread := by
  rw [notify]
  split
  · rename_i stop h
    exact ⟨_, rfl, by rw [h]; rfl, by rw [h]; rfl⟩
  · exact ⟨s.thread, rfl, rfl, rfl⟩

/-- Steps that only move the thread on. -/
theorem Covered.move {next : KillerThread} (h : Covered s)
    (hterm : ∀ p ∈ s.alive, p ∈ toTerminate s.thread → p ∈ toTerminate next)
    (hkill : ∀ p ∈ s.alive, p ∈ toKill s.thread → p ∈ toKill next) :
    Covered { s with thread := next } := by
  refine h.quiet (List.Subset.refl _) (fun p hp => .inl hp) rfl rfl rfl ?_
  rintro hard p hp (hqueue | hthread)
  · exact .inl hqueue
  · refine .inr ?_
    cases hard with
    | false => exact hterm p hp hthread
    | true => exact hkill p hp hthread

theorem Covered.request (h : Covered s) (hproc : proc ∈ s.alive) :
    Covered (s.killProcessTree proc) := by
  obtain ⟨thread, hnotify, hterm, hkill⟩ := notify_eq { s with
    taskQueue := ⟨false, 0, proc⟩ :: s.taskQueue
    requested := proc :: s.requested }
  have hpending (hard : Bool) (p : Proc) (hp : s.Pending hard p) :
      (s.killProcessTree proc).Pending hard p := by
    rw [killProcessTree, hnotify]
    rcases hp with ⟨t, ht, hmatch⟩ | hthread
    · exact .inl ⟨t, List.mem_cons_of_mem _ ht, hmatch⟩
    · refine .inr ?_
      simp only [hterm, hkill]
      exact hthread
  have halive : (s.killProcessTree proc).alive = s.alive := by rw [killProcessTree, hnotify]
  have hknown : (s.killProcessTree proc).known = s.known := by rw [killProcessTree, hnotify]
  have hrequested : (s.killProcessTree proc).requested = proc :: s.requested := by
    rw [killProcessTree, hnotify]
  have hterminated : (s.killProcessTree proc).terminated = s.terminated := by
    rw [killProcessTree, hnotify]
  have hkilled : (s.killProcessTree proc).killed = s.killed := by rw [killProcessTree, hnotify]
  constructor
  · rw [halive, hknown]
    exact h.alive
  · rw [halive, hknown, hrequested, hterminated]
    refine List.forall_mem_cons.2 ⟨⟨h.alive proc hproc, fun _ => .inl (.inl ?_)⟩, fun p hp => ?_⟩
    · rw [killProcessTree, hnotify]
      exact ⟨_, List.mem_cons_self, rfl, rfl⟩
    · obtain ⟨hk, hpend⟩ := h.requested p hp
      exact ⟨hk, fun hp' => (hpend hp').imp_left (hpending false p)⟩
  · rw [halive, hknown, hterminated, hkilled]
    intro p hp
    obtain ⟨hk, hpend⟩ := h.terminated p hp
    exact ⟨hk, fun hp' => (hpend hp').imp_left (hpending true p)⟩

theorem Covered.step (h : Covered s) (hs : Steps s own s') : Covered s' := by
  cases hs with
  | none => exact h
  | request hup hproc => exact h.request hproc
  | shutDown hup =>
    obtain ⟨thread, hnotify, hterm, hkill⟩ := notify_eq { s with shutDown := true }
    rw [hnotify]
    refine h.quiet (List.Subset.refl _) (fun p hp => .inl hp) rfl rfl rfl fun hard p _ hp => ?_
    simp only [Pending, hterm, hkill] at hp ⊢
    exact hp
  | spawn hproc =>
    refine h.quiet (List.subset_cons_self _ _) (fun p hp => ?_) rfl rfl rfl fun hard p _ hp => hp
    rcases List.mem_cons.1 hp with rfl | hp
    · exact .inr ⟨hproc, List.mem_cons_self⟩
    · exact .inl hp
  | die =>
    refine h.quiet (List.Subset.refl _) (fun p hp => ?_) rfl rfl rfl fun hard p _ hp => hp
    exact .inl (List.mem_filter.1 hp).1
  | tick => exact h.quiet (List.Subset.refl _) (fun p hp => .inl hp) rfl rfl rfl fun _ _ _ hp => hp
  | exit hrun | sleep hrun | wait hrun =>
    exact h.move (fun p _ hp => by rw [hrun] at hp; cases hp) fun p _ hp => by
      rw [hrun] at hp
      cases hp
  | wake hwait | noneAlive hwait | killedAll hwait =>
    exact h.move (fun p _ hp => by rw [hwait] at hp; cases hp) fun p _ hp => by
      rw [hwait] at hp
      cases hp
  | drop hrun ht hgone =>
    rename_i t
    refine h.quiet (List.Subset.refl _) (fun p hp => .inl hp) rfl rfl rfl ?_
    rintro hard p hp (⟨u, hu, hmatch⟩ | hthread)
    · refine .inl ⟨u, (List.mem_erase_of_ne fun he => hgone ?_).2 hu, hmatch⟩
      rw [← he, hmatch.2]
      exact hp
    · exact .inr hthread
  | take hrun ht hdue =>
    rename_i t
    refine h.quiet (List.Subset.refl _) (fun p hp => .inl hp) rfl rfl rfl ?_
    rintro hard p hp (⟨u, hu, hmatch⟩ | hthread)
    · by_cases he : u = t
      · subst he
        obtain ⟨rfl, rfl⟩ := hmatch
        refine .inr ?_
        cases hhard : u.hardKill <;> simp [toTerminate, toKill, hhard]
      · exact .inl ⟨u, (List.mem_erase_of_ne he).2 hu, hmatch⟩
    · rw [hrun] at hthread
      cases hard <;> cases hthread
  | lost htaken hgone =>
    refine h.move (fun p hp hp' => ?_) fun p hp hp' => ?_
    · rw [htaken, toTerminate] at hp'
      split at hp'
      · cases hp'
      · exact absurd (List.mem_singleton.1 hp' ▸ hp) hgone
    · rw [htaken, toKill] at hp'
      split at hp'
      · exact absurd (List.mem_singleton.1 hp' ▸ hp) hgone
      · cases hp'
  | startTerminating htaken hsoft =>
    refine h.move (fun p hp hp' => ?_) fun p hp hp' => ?_
    · rw [htaken, toTerminate, hsoft] at hp'
      exact List.mem_append_right _ hp'
    · rw [htaken, toKill, hsoft] at hp'
      cases hp'
  | startKilling htaken hhard =>
    refine h.move (fun p hp hp' => ?_) fun p hp hp' => ?_
    · rw [htaken, toTerminate, hhard] at hp'
      cases hp'
    · rw [htaken, toKill, hhard] at hp'
      exact List.mem_append_right _ hp'
  | terminate hterm hchild =>
    refine h.mono (List.Subset.refl _) (fun p hp => .inl hp) rfl ?_ ?_ ?_
    · rintro p ⟨x, hx, rfl⟩
      rcases List.mem_cons.1 hx with rfl | hx
      · exact .inr ⟨h.alive _ hchild, .inr (List.mem_append_right _ (List.mem_singleton_self _))⟩
      · exact .inl ⟨x, hx, rfl⟩
    · rintro p hp ((hqueue | hthread) | ⟨x, hx, rfl⟩)
      · exact .inl (.inl hqueue)
      · rw [hterm] at hthread
        rcases List.mem_cons.1 hthread with rfl | hthread
        · exact .inr ⟨_, List.mem_cons_self, rfl⟩
        · exact .inl (.inr hthread)
      · exact .inr ⟨x, List.mem_cons_of_mem _ hx, rfl⟩
    · rintro p hp ((hqueue | hthread) | hgot)
      · exact .inl (.inl hqueue)
      · rw [hterm] at hthread
        exact .inl (.inr (List.mem_append_left _ hthread))
      · exact .inr hgot
  | terminateGone hterm hchild =>
    refine h.move (fun p hp hp' => ?_) fun p hp hp' => by rwa [hterm] at hp'
    rw [hterm] at hp'
    exact (List.mem_cons.1 hp').resolve_left fun he => hchild (he ▸ hp)
  | schedule hterm =>
    exact h.move (fun p hp hp' => by rw [hterm] at hp'; cases hp') fun p hp hp' => by
      rwa [hterm] at hp'
  | push hpush =>
    refine h.quiet (List.Subset.refl _) (fun p hp => .inl hp) rfl rfl rfl ?_
    rintro hard p hp (⟨t, ht, hmatch⟩ | hthread)
    · exact .inl ⟨t, List.mem_append_right _ ht, hmatch⟩
    · rw [hpush] at hthread
      cases hard with
      | false => cases hthread
      | true =>
        exact .inl ⟨_, List.mem_append_left _ (List.mem_map_of_mem hthread), rfl, rfl⟩
  | kill hkill hchild =>
    refine h.mono (List.Subset.refl _) (fun p hp => .inl hp) rfl (fun p hp => .inl hp) ?_ ?_
    · rintro p hp ((hqueue | hthread) | hgot)
      · exact .inl (.inl hqueue)
      · rw [hkill] at hthread
        cases hthread
      · exact .inr hgot
    · rintro p hp ((hqueue | hthread) | ⟨x, hx, rfl⟩)
      · exact .inl (.inl hqueue)
      · rw [hkill] at hthread
        rcases List.mem_cons.1 hthread with rfl | hthread
        · exact .inr ⟨_, List.mem_cons_self, rfl⟩
        · exact .inl (.inr hthread)
      · exact .inr ⟨x, List.mem_cons_of_mem _ hx, rfl⟩
  | killGone hkill hchild =>
    refine h.move (fun p hp hp' => by rw [hkill] at hp'; cases hp') fun p hp hp' => ?_
    rw [hkill] at hp'
    exact (List.mem_cons.1 hp').resolve_left fun he => hchild (he ▸ hp)

/-- The process got the milder signal long enough before the time. -/
def Warned (s : ProcessKiller) (p : Proc) (time : Nat) : Prop :=
  ∃ x ∈ s.terminated, x.1 = p ∧ x.2.2 + termTimeout ≤ time

theorem Warned.mono (h : s.Warned p time) (hsub : s.terminated ⊆ s'.terminated)
    (hle : time ≤ time') : s'.Warned p time' := by
  obtain ⟨x, hx, hp, htime⟩ := h
  exact ⟨x, hsub hx, hp, Nat.le_trans htime hle⟩

/-- What is known of the processes that the thread works on. -/
def ThreadTimed (s : ProcessKiller) : KillerThread → Prop
  | .taken t => if t.hardKill then s.Warned t.proc s.now else t.proc ∈ s.requested
  | .terminating root _ aliveChildren =>
    root ∈ s.requested ∧ ∀ c ∈ aliveChildren, s.Warned c (s.now + termTimeout)
  | .pushing w aliveChildren => ∀ c ∈ aliveChildren, s.Warned c w
  | .killing root _ => s.Warned root s.now
  | _ => True

/-- Signals go to the trees of processes that were asked for, and the harder one comes later. -/
structure Timed (s : ProcessKiller) : Prop where
  soft : ∀ t ∈ s.taskQueue, t.hardKill = false → t.when = 0 ∧ t.proc ∈ s.requested
  hard : ∀ t ∈ s.taskQueue, t.hardKill = true → s.Warned t.proc t.when
  thread : s.ThreadTimed s.thread
  terminated : ∀ x ∈ s.terminated, x.2.1 ∈ s.requested
  killed : ∀ x ∈ s.killed, s.Warned x.2.1 x.2.2

theorem ThreadTimed.mono {thread : KillerThread} (h : s.ThreadTimed thread)
    (hterm : s.terminated ⊆ s'.terminated) (hreq : s.requested ⊆ s'.requested)
    (hnow : s.now ≤ s'.now) : s'.ThreadTimed thread := by
  cases thread with
  | running => trivial
  | waiting stop => trivial
  | taken t =>
    rw [ThreadTimed] at h ⊢
    by_cases hhard : t.hardKill = true
    · rw [if_pos hhard] at h ⊢
      exact h.mono hterm hnow
    · rw [if_neg hhard] at h ⊢
      exact hreq h
  | terminating root children aliveChildren =>
    exact ⟨hreq h.1, fun c hc => (h.2 c hc).mono hterm (Nat.add_le_add_right hnow _)⟩
  | pushing w aliveChildren => exact fun c hc => (h c hc).mono hterm le_rfl
  | killing root children => exact Warned.mono h hterm hnow
  | exited => trivial

/-- What a step may change. -/
theorem Timed.mono (h : Timed s) (hterm : s.terminated ⊆ s'.terminated)
    (hreq : s.requested ⊆ s'.requested)
    (hqueue : ∀ t ∈ s'.taskQueue, t ∈ s.taskQueue ∨
      (t.hardKill = false → t.when = 0 ∧ t.proc ∈ s'.requested) ∧
        (t.hardKill = true → s'.Warned t.proc t.when))
    (hthread : s'.ThreadTimed s'.thread)
    (hterm' : ∀ x ∈ s'.terminated, x ∈ s.terminated ∨ x.2.1 ∈ s'.requested)
    (hkilled : ∀ x ∈ s'.killed, x ∈ s.killed ∨ s'.Warned x.2.1 x.2.2) : Timed s' where
  soft := by
    intro t ht hsoft
    rcases hqueue t ht with hold | hnew
    · obtain ⟨hzero, hmem⟩ := h.soft t hold hsoft
      exact ⟨hzero, hreq hmem⟩
    · exact hnew.1 hsoft
  hard := by
    intro t ht hhard
    rcases hqueue t ht with hold | hnew
    · exact (h.hard t hold hhard).mono hterm le_rfl
    · exact hnew.2 hhard
  thread := hthread
  terminated := by
    intro x hx
    rcases hterm' x hx with hold | hnew
    · exact hreq (h.terminated x hold)
    · exact hnew
  killed := by
    intro x hx
    rcases hkilled x hx with hold | hnew
    · exact (h.killed x hold).mono hterm le_rfl
    · exact hnew

/-- Steps that neither send signals nor put anything on the queue. -/
theorem Timed.quiet (h : Timed s) (hterm : s'.terminated = s.terminated)
    (hreq : s'.requested = s.requested) (hkilled : s'.killed = s.killed)
    (hqueue : s'.taskQueue ⊆ s.taskQueue) (hthread : s'.ThreadTimed s'.thread) : Timed s' := by
  refine h.mono (hterm ▸ List.Subset.refl _) (hreq ▸ List.Subset.refl _)
    (fun t ht => .inl (hqueue ht)) hthread (fun x hx => .inl (hterm ▸ hx)) fun x hx => ?_
  exact .inl (hkilled ▸ hx)

theorem notify_timed (h : Timed s) : Timed s.notify := by
  rw [notify]
  split
  · exact h.quiet rfl rfl rfl (List.Subset.refl _) trivial
  · exact h

theorem Timed.step (h : Timed s) (hs : Steps s own s') : Timed s' := by
  have hself : s.ThreadTimed s.thread := h.thread
  cases hs with
  | none => exact h
  | request hup hproc =>
    rename_i proc
    refine notify_timed (h.mono (List.Subset.refl _) (List.subset_cons_self _ _) (fun t ht => ?_)
      (hself.mono (List.Subset.refl _) (List.subset_cons_self _ _) le_rfl) (fun x hx => .inl hx)
      fun x hx => .inl hx)
    rcases List.mem_cons.1 ht with rfl | ht
    · exact .inr ⟨fun _ => ⟨rfl, List.mem_cons_self⟩, fun hhard => absurd hhard Bool.false_ne_true⟩
    · exact .inl ht
  | shutDown hup => exact notify_timed (h.quiet rfl rfl rfl (List.Subset.refl _) hself)
  | spawn hproc => exact h.quiet rfl rfl rfl (List.Subset.refl _) hself
  | die => exact h.quiet rfl rfl rfl (List.Subset.refl _) hself
  | tick =>
    exact h.quiet rfl rfl rfl (List.Subset.refl _)
      (hself.mono (List.Subset.refl _) (List.Subset.refl _) (Nat.le_add_right _ _))
  | exit hrun | sleep hrun | wait hrun | wake hrun | lost hrun | noneAlive hrun | killedAll hrun =>
    exact h.quiet rfl rfl rfl (List.Subset.refl _) trivial
  | drop hrun ht hgone => exact h.quiet rfl rfl rfl List.erase_subset hself
  | take hrun ht hdue =>
    rename_i t
    refine h.quiet rfl rfl rfl List.erase_subset ?_
    show ThreadTimed _ (.taken t)
    rw [ThreadTimed]
    by_cases hhard : t.hardKill = true
    · rw [if_pos hhard]
      exact (h.hard t ht hhard).mono (List.Subset.refl _) hdue
    · rw [if_neg hhard]
      exact (h.soft t ht (Bool.eq_false_iff.2 hhard)).2
  | startTerminating htaken hsoft =>
    rw [htaken, ThreadTimed, if_neg (Bool.eq_false_iff.1 hsoft)] at hself
    exact h.quiet rfl rfl rfl (List.Subset.refl _) ⟨hself, List.forall_mem_nil _⟩
  | startKilling htaken hhard =>
    rw [htaken, ThreadTimed, if_pos hhard] at hself
    exact h.quiet rfl rfl rfl (List.Subset.refl _) hself
  | terminate hterm hchild =>
    rw [hterm] at hself
    refine h.mono (List.subset_cons_self _ _) (List.Subset.refl _) (fun t ht => .inl ht)
      ⟨hself.1, List.forall_mem_append.2 ⟨fun c hc => ?_, List.forall_mem_singleton.2 ?_⟩⟩
      (fun x hx => ?_) fun x hx => .inl hx
    · exact (hself.2 c hc).mono (List.subset_cons_self _ _) le_rfl
    · exact ⟨_, List.mem_cons_self, rfl, le_rfl⟩
    · rcases List.mem_cons.1 hx with rfl | hx
      · exact .inr hself.1
      · exact .inl hx
  | terminateGone hterm hchild =>
    rw [hterm] at hself
    exact h.quiet rfl rfl rfl (List.Subset.refl _) hself
  | schedule hterm =>
    rw [hterm] at hself
    exact h.quiet rfl rfl rfl (List.Subset.refl _) hself.2
  | push hpush =>
    rw [hpush] at hself
    refine h.mono (List.Subset.refl _) (List.Subset.refl _) (fun t ht => ?_) trivial
      (fun x hx => .inl hx) fun x hx => .inl hx
    rcases List.mem_append.1 ht with ht | ht
    · obtain ⟨c, hc, rfl⟩ := List.mem_map.1 ht
      exact .inr ⟨fun hsoft => absurd hsoft Bool.false_ne_true.symm, fun _ => hself c hc⟩
    · exact .inl ht
  | kill hkill hchild =>
    rw [hkill] at hself
    refine h.mono (List.Subset.refl _) (List.Subset.refl _) (fun t ht => .inl ht) hself
      (fun x hx => .inl hx) fun x hx => ?_
    rcases List.mem_cons.1 hx with rfl | hx
    · exact .inr hself
    · exact .inl hx
  | killGone hkill hchild =>
    rw [hkill] at hself
    exact h.quiet rfl rfl rfl (List.Subset.refl _) hself

/-- The thread sleeps through no task: it does not wait beyond the time of one, and it waits without
a limit, or is gone, only when there is none. -/
structure Awake (s : ProcessKiller) : Prop where
  limit : ∀ stop, s.thread = .waiting (some stop) → ∀ t ∈ s.taskQueue, stop ≤ t.when
  idle : s.thread = .waiting none → s.taskQueue = [] ∧ s.shutDown = false
  gone : s.thread = .exited → s.taskQueue = [] ∧ s.shutDown = true

theorem Awake.busy (hlimit : ∀ stop, s.thread ≠ .waiting stop) (hgone : s.thread ≠ .exited) :
    Awake s :=
  ⟨fun _ h => absurd h (hlimit _), fun h => absurd h (hlimit _), fun h => absurd h hgone⟩

theorem notify_not_waiting (s : ProcessKiller) (stop : Option Nat) :
    s.notify.thread ≠ .waiting stop := by
  rw [notify]
  split
  · exact fun h => by cases h
  · rename_i hnone
    exact hnone stop

theorem notify_exited (h : s.notify.thread = .exited) : s.notify = s ∧ s.thread = .exited := by
  rw [notify] at h ⊢
  split at h
  · cases h
  · exact ⟨rfl, h⟩

/-- The order of the heap puts the processes that are to be terminated first. -/
theorem when_le_of_notAfter (h : ProcessKillerTask.NotAfter t u) (hhard : t.hardKill = true) :
    t.when ≤ u.when := by
  rcases h with h | h
  · rw [hhard] at h
    exact absurd h (by cases u.hardKill <;> decide)
  · exact h.2

theorem Awake.step (h : Awake s) (htimed : Timed s) (hs : Steps s own s') : Awake s' := by
  cases hs with
  | none => exact h
  | request hup hproc =>
    refine ⟨fun stop hwait => absurd hwait (notify_not_waiting _ _),
      fun hwait => absurd hwait (notify_not_waiting _ _), fun hgone => ?_⟩
    have hdown := (h.gone (notify_exited hgone).2).2
    rw [hup] at hdown
    cases hdown
  | shutDown hup =>
    refine ⟨fun stop hwait => absurd hwait (notify_not_waiting _ _),
      fun hwait => absurd hwait (notify_not_waiting _ _), fun hgone => ?_⟩
    obtain ⟨hsame, hexited⟩ := notify_exited hgone
    rw [hsame]
    exact ⟨(h.gone hexited).1, rfl⟩
  | spawn hproc => exact ⟨h.limit, h.idle, h.gone⟩
  | die => exact ⟨h.limit, h.idle, h.gone⟩
  | tick => exact ⟨h.limit, h.idle, h.gone⟩
  | exit hrun hempty hdown =>
    refine ⟨fun stop he => ?_, fun he => ?_, fun _ => ⟨hempty, hdown⟩⟩
    · cases he
    · cases he
  | sleep hrun hempty hup =>
    refine ⟨fun stop he => ?_, fun _ => ⟨hempty, hup⟩, fun he => ?_⟩
    · cases he
    · cases he
  | wait hrun ht hleast hlater =>
    rename_i t
    -- A process that is to be terminated is never waited for.
    have hhard : t.hardKill = true := by
      by_contra hsoft
      have hzero := (htimed.soft t ht (Bool.eq_false_iff.2 hsoft)).1
      rw [hzero] at hlater
      exact Nat.not_lt_zero _ hlater
    refine ⟨fun stop he u hu => ?_, fun he => ?_, fun he => ?_⟩
    · cases he
      exact Nat.le_trans (Nat.min_le_left _ _) (when_le_of_notAfter (hleast u hu) hhard)
    · cases he
    · cases he
  | drop hrun ht hgone =>
    refine .busy (fun stop he => ?_) fun he => ?_
    · rw [hrun] at he
      cases he
    · rw [hrun] at he
      cases he
  | take hrun | wake hrun | lost hrun | startTerminating hrun | startKilling hrun | terminate hrun
  | terminateGone hrun | noneAlive hrun | schedule hrun | push hrun | kill hrun | killGone hrun
  | killedAll hrun =>
    exact .busy (fun stop he => by cases he) fun he => by cases he

/-- Before anything is asked for, with the processes that there are. -/
def create (alive : List Proc) : ProcessKiller := { alive := alive, known := alive }

theorem create_covered (procs : List Proc) : Covered (create procs) where
  alive := fun _ hp => hp
  requested := List.forall_mem_nil _
  terminated := by
    rintro p ⟨x, hx, -⟩
    cases hx

theorem create_timed (procs : List Proc) : Timed (create procs) where
  soft := List.forall_mem_nil _
  hard := List.forall_mem_nil _
  thread := trivial
  terminated := List.forall_mem_nil _
  killed := List.forall_mem_nil _

theorem create_awake (procs : List Proc) : Awake (create procs) := by
  refine .busy (fun stop he => ?_) fun he => ?_
  · cases he
  · cases he

theorem invariants (h : Reach step (create procs) s) : Covered s ∧ Timed s ∧ Awake s := by
  have hstart : Covered (create procs) ∧ Timed (create procs) ∧ Awake (create procs) :=
    ⟨create_covered procs, create_timed procs, create_awake procs⟩
  refine h.invariant (P := fun s => Covered s ∧ Timed s ∧ Awake s) hstart ?_
  intro u e v hu _ hstep
  have hs := step_cases hstep
  exact ⟨hu.1.step hs, hu.2.1.step hs, hu.2.2.step hu.2.1 hs⟩

theorem nothing_left (h : Reach step (create procs) s) (hgone : s.thread = .exited)
    (hp : p ∈ s.requested ∨ Got s.terminated p) : p ∉ s.alive ∨ Got s.killed p := by
  obtain ⟨hcovered, -, hawake⟩ := invariants h
  have hempty := (hawake.gone hgone).1
  have hnone (hard : Bool) : ¬ s.Pending hard p := by
    rintro (⟨t, ht, -⟩ | hthread)
    · rw [hempty] at ht
      cases ht
    · rw [hgone] at hthread
      cases hard <;> cases hthread
  have hterm (hgot : Got s.terminated p) : p ∉ s.alive ∨ Got s.killed p := by
    by_cases halive : p ∈ s.alive
    · exact .inr (((hcovered.terminated p hgot).2 halive).resolve_left (hnone true))
    · exact .inl halive
  rcases hp with hp | hp
  · by_cases halive : p ∈ s.alive
    · exact hterm (((hcovered.requested p hp).2 halive).resolve_left (hnone false))
    · exact .inl halive
  · exact hterm hp

/-- Whatever the order of steps: the harder signal only goes into the tree of a process that got the
milder one three seconds before, and the milder one only into the trees of processes that the killer
was asked to kill. The thread sleeps through no task, and when it is gone, each process that it was
asked to kill and each one that it has terminated has exited or was killed. -/
theorem killer_safe (procs : List Proc) (h : Reach step (create procs) s) :
    (∀ x ∈ s.terminated, x.2.1 ∈ s.requested) ∧
      (∀ x ∈ s.killed, ∃ y ∈ s.terminated, y.1 = x.2.1 ∧ y.2.2 + termTimeout ≤ x.2.2) ∧
      Awake s ∧
      (s.thread = .exited → ∀ p, p ∈ s.requested ∨ Got s.terminated p →
        p ∉ s.alive ∨ Got s.killed p) := by
  obtain ⟨-, htimed, hawake⟩ := invariants h
  exact ⟨htimed.terminated, htimed.killed, hawake, fun hgone p hp => nothing_left h hgone hp⟩

/-- Of a process and its child one exits, and the other one has to be killed. -/
def stubbornRun : List Event :=
  [.request 1, .look (some ⟨false, 0, 1⟩), .act [2], .act [], .act [], .act [], .act [], .die 2,
    .look (some ⟨true, 3000, 2⟩), .look (some ⟨true, 3000, 1⟩), .tick 1000, .wake,
    .look (some ⟨true, 3000, 1⟩), .tick 2000, .wake, .shutDown, .look (some ⟨true, 3000, 1⟩),
    .act [], .act [], .act [], .look none]

theorem killer_safe_stubborn : ∃ s, runFrom step (create [1, 2]) stubbornRun = some s ∧
    s.thread = .exited ∧ s.alive = [1] ∧ s.killed = [(1, 1, 3000)] ∧
      (∀ x ∈ s.terminated, x.2.1 ∈ s.requested) ∧
      (∀ x ∈ s.killed, ∃ y ∈ s.terminated, y.1 = x.2.1 ∧ y.2.2 + termTimeout ≤ x.2.2) ∧
      Awake s ∧
      (s.thread = .exited → ∀ p, p ∈ s.requested ∨ Got s.terminated p →
        p ∉ s.alive ∨ Got s.killed p) := by
  have hrun : ((runFrom step (create [1, 2]) stubbornRun).map
      fun s => (s.thread, s.alive, s.killed)) = some (.exited, [1], [(1, 1, 3000)]) := by decide
  obtain ⟨s, hs, hend⟩ := Option.map_eq_some_iff.1 hrun
  obtain ⟨hgone, halive, hkilled⟩ :
      s.thread = .exited ∧ s.alive = [1] ∧ s.killed = [(1, 1, 3000)] := by
    simpa using hend
  exact ⟨s, hs, hgone, halive, hkilled, killer_safe [1, 2] (runFrom_reach hs)⟩

end ProcessKiller

end Cvise
