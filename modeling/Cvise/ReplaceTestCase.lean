import Cvise.ExceptionTriple
import Cvise.TestCase
import Mathlib.Logic.Function.Basic

namespace Cvise
set_option autoImplicit true

/-- The exceptions that may come at any time; only the last one is an `Exception`. -/
inductive Interruption where
  | keyboardInterrupt
  | systemExit
  | osError
deriving DecidableEq

/-- The places that the replacement reads and writes. The last two are under the temporary name: the
new contents, and in the directory case the old contents that are set aside. -/
inductive Place where
  | source
  | destination
  | newPath
  | oldDestination
deriving DecidableEq

abbrev FileSystem := Place → Option TestCase

/-- The points at which the replacement may be interrupted. -/
inductive ReplaceStep where
  | creating
  | created
  | preparing (i : Nat)
  | prepared
  | settingAside
  | setAside
  | renaming
  | renamed
  | leaving (i : Nat)
  | returning
deriving DecidableEq

/-- What is outside of the code: the one exception that comes, if any, what is at the source and at the
new path while the contents are moved or copied, and what is left of the old contents while they are
deleted. -/
structure Surroundings where
  fault : Option (ReplaceStep × Interruption) := none
  preparing : List (Option TestCase × Option TestCase) := []
  deleting : List (Option TestCase) := []

abbrev FileM (α : Type) := EStateM Interruption FileSystem α

def put (p : Place) (t : Option TestCase) (fs : FileSystem) : FileSystem := Function.update fs p t

namespace Surroundings

def check (env : Surroundings) (step : ReplaceStep) : FileM Unit :=
  match env.fault with
  | some (s, e) => if s = step then throw e else pure ()
  | none => pure ()

end Surroundings

/-- Whether a rename may take the place of what is at the target. -/
def replaceable : TestCase → Option TestCase → Bool
  | _, none => true
  | .file _, some (.file _) => true
  | .dir _, some (.dir t) => t.entries.isEmpty
  | _, _ => false

/-- `Path.rename`, which is atomic. -/
def rename (p q : Place) : FileM Unit := fun fs =>
  match fs p with
  | none => .error .osError fs
  | some t => if replaceable t (fs q) then .ok () (put q (some t) (put p none fs)) else .error .osError fs

def prepareFrom (env : Surroundings) (i : Nat) : List (Option TestCase × Option TestCase) → FileM Unit
  | [] => env.check .prepared
  | (source, new) :: rest => do
    env.check (.preparing i)
    modify fun fs => put .newPath new (put .source source fs)
    prepareFrom env (i + 1) rest

/-- `shutil.move`, or `shutil.copytree` and `shutil.copy2`, to the new path. -/
def prepare (env : Surroundings) (move : Bool) (contents : TestCase) : FileM Unit := do
  prepareFrom env 0 env.preparing
  modify fun fs => put .newPath (some contents) (put .source (if move then none else some contents) fs)

/-- What was under the temporary name is gone. -/
def deleteTemporary : FileM Unit := modify fun fs => put .newPath none (put .oldDestination none fs)

/-- `TemporaryDirectory.__exit__`. -/
def leaveFrom (env : Surroundings) (i : Nat) : List (Option TestCase) → FileM Unit
  | [] => do
    env.check (.leaving i)
    deleteTemporary
  | old :: rest => do
    env.check (.leaving i)
    modify (put .oldDestination old)
    leaveFrom env (i + 1) rest

/-- `_cleanup_abnormal_exit`, which deletes all that has the random prefix. -/
def cleanupAbnormalExit : FileM Unit := deleteTemporary

/-- `with contextlib.suppress(Exception)`. -/
def suppressException (x : FileM Unit) : FileM Unit :=
  tryExcept x fun e => if e = .osError then pure () else throw e

/-- The two renames, with their handler `except (KeyboardInterrupt, SystemExit)`. -/
def swap (env : Surroundings) : FileM Unit :=
  tryExcept (do
    env.check .settingAside
    rename .destination .oldDestination
    env.check .setAside
    env.check .renaming
    rename .newPath .destination
    env.check .renamed)
  fun e => do
    if e ≠ .osError then suppressException (rename .oldDestination .destination)
    throw e

def replaceDirTestCaseAtomically (env : Surroundings) (move : Bool) (contents : TestCase) : FileM Unit :=
  tryExcept (do
    env.check .creating
    env.check .created
    tryFinally (do
      prepare env move contents
      swap env)
      (leaveFrom env 0 env.deleting)
    env.check .returning)
  fun e => do
    cleanupAbnormalExit
    throw e

/-- `_replace_file_test_case_atomically`, in a `CloseableTemporaryFile`. -/
def replaceFileTestCaseAtomically (env : Surroundings) (move : Bool) (contents : TestCase) : FileM Unit :=
  tryExcept (do
    env.check .creating
    modify (put .newPath (some (.file [])))
    env.check .created
    tryFinally (do
      prepare env move contents
      env.check .renaming
      rename .newPath .destination
      env.check .renamed)
      (leaveFrom env 0 [])
    env.check .returning)
  fun e => do
    cleanupAbnormalExit
    throw e

def replaceTestCaseAtomically (env : Surroundings) (move : Bool) : FileM Unit := fun fs =>
  match fs .source with
  | none => .error .osError fs
  | some contents =>
    if contents.isDir then replaceDirTestCaseAtomically env move contents fs
    else replaceFileTestCaseAtomically env move contents fs

end Cvise
