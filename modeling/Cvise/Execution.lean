import Cvise.RunPasses

namespace Cvise
set_option autoImplicit true

variable {T L : Type}

/-- A call of `run_passes`, a step of the main process in it, or a step of the worker with the job
of this order: it copies a test case, calls `transform`, runs the test, runs a job that initializes
a pass, exceeds its time, or fails with an unexpected exception. -/
inductive Event (T L : Type) where
  | runPasses (call : Call T L)
  | main (ch : Choice)
  | copy (order : Nat) (t : T)
  | transform (order : Nat) (seed : Seed)
  | test (order : Nat)
  | init (order : Nat) (seed : Seed)
  | timeOut (order : Nat)
  | fail (order : Nat)

namespace TestManager

/-- The manager when `run_passes` is first called. -/
def start (disk : T → TestCase) (t : T) (startWithPass : Option Str) (crashDirs : Nat) :
    TestManager T L where
  disk := disk
  currentTestCase := t
  startWithPass := startWithPass
  crashDirs := crashDirs

/-- A step of the worker with the job of this order, which has not ended. -/
def work (order : Nat) (f : Job T L → Option (Job T L)) (m : TestManager T L) :
    Option (TestManager T L) :=
  match m.jobs.find? (·.order = order) with
  | none => none
  | some j =>
    if j.future = .pending then
      (f j).map fun j' =>
        { m with jobs := m.jobs.map fun k => if k.order = order then j' else k }
    else none

section
variable [DecidableEq T]

/-- A round of `copy_test_cases`. The environment catches the exception of a copy that fails. -/
def copyTestCase (cfg : Config T) (t : T) (m : TestManager T L) (j : Job T L) :
    Option (Job T L) :=
  match j.work with
  | .init _ => none
  | .transform env =>
    if t ∈ cfg.testCases ∧ env.copies t ∧ env.result = none ∧ env.folder t = none then
      match diskCopy cfg m.disk t with
      | some tc => some { j with work := .transform (env.copy t tc) }
      | none => some { j with future := .done }
    else none

def callTransform (cfg : Config T) (seed : Seed) (m : TestManager T L) (j : Job T L) :
    Option (Job T L) :=
  match j.work with
  | .init _ => none
  | .transform env =>
    if env.result = none ∧ ∀ t ∈ cfg.testCases, env.copies t → env.folder t ≠ none then
      let (env', goesOn) := env.runTransform m.reader seed (m.disk env.testCase)
      some { j with work := .transform env', future := if goesOn then .pending else .done }
    else none

def runTest (cfg : Config T) (m : TestManager T L) (j : Job T L) : Option (Job T L) :=
  match j.work with
  | .init _ => none
  | .transform env =>
    if env.result = some .ok ∧ env.exitcode = none then
      some { j with
        work := .transform (env.runTest cfg.test (m.disk env.testCase)), future := .done }
    else none

end

/-- What a job that initializes a pass ends with, and the directory that it filled. -/
def initOutcome (seed : Seed) (m : TestManager T L) (env : InitEnv T L) :
    Work T L × Future × Option HintDir :=
  match env.run m.reader seed (m.disk env.testCase) with
  | .error e => (.init env, .failed e, none)
  | .ok (state, files) =>
    (.init { env with result := state }, .done, some ⟨some (m.disk env.testCase), files⟩)

def runInit (order : Nat) (seed : Seed) (m : TestManager T L) : Option (TestManager T L) :=
  match m.jobs.find? (·.order = order) with
  | none => none
  | some j =>
    match j.work with
    | .transform _ => none
    | .init env =>
      let (w, future, dir) := m.initOutcome seed env
      (m.work order fun j => some { j with work := w, future := future }).map fun m' =>
        match dir with
        | none => m'
        | some d => { m' with dirs := fun e => if e = env.tmpDir then some d else m'.dirs e }

def timeOut (j : Job T L) : Option (Job T L) := some { j with future := .failed .timeoutError }

/-- The environment of a transform job catches the exception. -/
def fail (j : Job T L) : Option (Job T L) :=
  some { j with future := if j.isTransform then .done else .failed .osError }

end TestManager

/-- What one event does, if it is possible. -/
def step [DecidableEq T] (cfg : Config T) (m : TestManager T L) (e : Event T L) :
    Option (TestManager T L) :=
  match e with
  | .runPasses call =>
    if m.phase = .idle ∧ call.sortedTestCases.Perm cfg.testCases then some (m.runPasses cfg call)
    else none
  | .main ch => m.mainStep cfg ch
  | .copy order t => m.work order (m.copyTestCase cfg t)
  | .transform order seed => m.work order (m.callTransform cfg seed)
  | .test order => m.work order (m.runTest cfg)
  | .init order seed => m.runInit order seed
  | .timeOut order => m.work order TestManager.timeOut
  | .fail order => m.work order TestManager.fail

end Cvise
