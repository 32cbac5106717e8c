import Cvise.Outcome
import Cvise.Text
import Mathlib.Data.List.Nodup
import Mathlib.Logic.Function.Basic

namespace Cvise
set_option autoImplicit true

abbrev Pid := Nat

inductive ProcessEventType where
  | started
  | finished
  /-- Reported instead of `finished` when the worker leaves the child not terminated. -/
  | orphaned
deriving DecidableEq

structure ProcessEvent where
  workerPid : Pid
  childPid : Pid
  type : ProcessEventType
deriving DecidableEq

/-- What `_notify_start` and `_auto_notify_end` of a `ProcessEventNotifier` put on the queue for a
child with this return code. -/
def notifierStream (returncode : Option Int) : List ProcessEventType :=
  [.started, if returncode = none then .orphaned else .finished]

/-- `ProcessMonitor`, with the PIDs that were passed to its killer. -/
structure ProcessMonitor where
  maxlen : Nat
  workerToChildPids : Pid → Option (List Pid) := fun _ => none
  recentDeadWorkers : List Pid := []
  killed : List Pid := []

/-- `deque.append` with a maximal length: the oldest ones are forgotten. -/
def appendRecent (maxlen : Nat) (recent : List Pid) (pid : Pid) : List Pid :=
  (recent ++ [pid]).drop (recent.length + 1 - maxlen)

namespace ProcessMonitor

def create (parallelTests : Nat) : ProcessMonitor := { maxlen := parallelTests * 10 }

def onWorkerStarted (m : ProcessMonitor) (worker : Pid) : ProcessMonitor :=
  let children := (m.workerToChildPids worker).getD []
  { m with
    workerToChildPids := Function.update m.workerToChildPids worker (some children)
    recentDeadWorkers := m.recentDeadWorkers.erase worker }

def onWorkerStopped (m : ProcessMonitor) (worker : Pid) : Except PyErr ProcessMonitor :=
  match m.workerToChildPids worker with
  | none => .error .keyError
  | some pidsToKill => .ok
    { m with
      recentDeadWorkers := appendRecent m.maxlen m.recentDeadWorkers worker
      workerToChildPids := Function.update m.workerToChildPids worker none
      killed := m.killed ++ pidsToKill }

/-- The children of a worker after an event about one of them. -/
def updateChildren (children : List Pid) (e : ProcessEvent) : List Pid :=
  if e.type = .started then children.insert e.childPid else children.filter (· ≠ e.childPid)

def onPidQueueEvent (m : ProcessMonitor) (e : ProcessEvent) : ProcessMonitor :=
  let posthumous := e.workerPid ∈ m.recentDeadWorkers
  let children := (m.workerToChildPids e.workerPid).getD []
  { m with
    workerToChildPids :=
      if posthumous then m.workerToChildPids
      else Function.update m.workerToChildPids e.workerPid (some (updateChildren children e))
    killed := if posthumous ∨ e.type = .orphaned then m.killed ++ [e.childPid] else m.killed }

/-- What the monitor is told: by the hooks of the workers' processes, and by its queue. -/
inductive Action where
  | workerStarted (worker : Pid)
  | workerStopped (worker : Pid)
  | pidQueueEvent (e : ProcessEvent)
deriving DecidableEq

def step (m : ProcessMonitor) : Action → Except PyErr ProcessMonitor
  | .workerStarted worker => .ok (m.onWorkerStarted worker)
  | .workerStopped worker => m.onWorkerStopped worker
  | .pidQueueEvent e => .ok (m.onPidQueueEvent e)

def run (parallelTests : Nat) (actions : List Action) : Except PyErr ProcessMonitor :=
  actions.foldlM step (create parallelTests)

def Action.startedWorker : Action → Option Pid
  | .workerStarted worker => some worker
  | _ => none

def Action.stoppedWorker : Action → Option Pid
  | .workerStopped worker => some worker
  | _ => none

def Action.eventOf (child : Pid) : Action → Option ProcessEventType
  | .pidQueueEvent e => if e.childPid = child then some e.type else none
  | _ => none

/-- The deaths of workers, in order. -/
def deaths (actions : List Action) : List Pid := actions.filterMap Action.stoppedWorker

/-- An interleaving of the lives of workers with the streams of events about their children: no PID is
used again, and each event comes before its worker is forgotten to be dead. -/
structure Interleaving (maxlen : Nat) (actions : List Action) : Prop where
  started_once : (actions.filterMap Action.startedWorker).Nodup
  stopped_once : (deaths actions).Nodup
  started_first : ∀ before w after, actions = before ++ .workerStopped w :: after →
    .workerStarted w ∈ before
  streams : ∀ child, ∃ returncode,
    actions.filterMap (Action.eventOf child) <+: notifierStream returncode
  one_worker : ∀ e e', .pidQueueEvent e ∈ actions → .pidQueueEvent e' ∈ actions →
    e.childPid = e'.childPid → e.workerPid = e'.workerPid
  remembered : ∀ before e mid after,
    actions = before ++ .workerStopped e.workerPid :: mid ++ .pidQueueEvent e :: after →
      (deaths mid).length < maxlen

end ProcessMonitor

end Cvise
