import Cvise.Text
import Cvise.Transition

namespace Cvise
set_option autoImplicit true

def sanitizeForFileName (text : Str) : Str :=
  text.map fun c =>
    if c.isAlphanum || c = '_' || c = '.' || c = '-' then c else '_'

theorem slash_not_mem_sanitized (text : Str) : '/' ∉ sanitizeForFileName text := by
  intro hmem
  obtain ⟨c, _, hc⟩ := List.mem_map.1 hmem
  split at hc
  · rename_i hsafe
    subst hc
    exact absurd hsafe (by decide)
  · exact absurd hc (by decide)

/-- A prefix that `create_dir` is called with: constants of one part, and sanitized texts. -/
structure DirPrefix where
  text : Str
  slash_not_mem : '/' ∉ text

namespace DirPrefix

def sanitized (text : Str) : DirPrefix := ⟨sanitizeForFileName text, slash_not_mem_sanitized text⟩

end DirPrefix

/-- A path under the root: the entry of the root, and the parts below it. -/
structure TmpPath where
  name : Str
  below : RelPath
deriving DecidableEq

inductive EntryKind where
  | file
  | dir
deriving DecidableEq

abbrev TmpDisk := List (TmpPath × EntryKind)

namespace TmpDisk

def has (disk : TmpDisk) (p : TmpPath) : Bool := disk.any (·.1 = p)

/-- `path.exists()`; the empty name, `.` and `..` are the root or its parent. -/
def pathExists (disk : TmpDisk) (name : Str) : Bool :=
  name ∈ ["".toList, ".".toList, "..".toList] || disk.has ⟨name, []⟩

/-- What can be deleted by itself: a file, or a directory without entries. -/
def removable (disk : TmpDisk) (p : TmpPath) : Bool :=
  disk.has p && !disk.any fun e => e.1.name = p.name && p.below.isPrefixOf e.1.below && e.1 ≠ p

def remove (disk : TmpDisk) (p : TmpPath) : TmpDisk := disk.filter (·.1 ≠ p)

/-- `root.iterdir()`. -/
def names (disk : TmpDisk) : List Str :=
  (disk.filter fun e => e.1.below.isEmpty).map (·.1.name)

end TmpDisk

/-- The deletions that `shutil.rmtree(dir, ignore_errors=True)` tries, each of which may fail. -/
inductive Removal where
  | below (parts : RelPath) (succeeds : Bool)
  | root (succeeds : Bool)

/-- The disk after the deletion, and whether it was the last one. -/
def rmtreeStep (disk : TmpDisk) (dir : Str) : Removal → Option (TmpDisk × Bool)
  | .below parts true =>
    if parts ≠ [] ∧ disk.removable ⟨dir, parts⟩ then some (disk.remove ⟨dir, parts⟩, false)
    else none
  | .below _ false => some (disk, false)
  | .root true =>
    if (⟨dir, []⟩, .dir) ∈ disk ∧ disk.removable ⟨dir, []⟩ then some (disk.remove ⟨dir, []⟩, true)
    else none
  | .root false => some (disk, true)

/-- Where the main thread is in `create_dir` or `delete_dir`. -/
inductive MainPhase where
  | idle
  | trying (pre : DirPrefix) (attempt : Nat)
  | registering (pre : DirPrefix) (attempt : Nat) (candidate : Str)
  | making (pre : DirPrefix) (attempt : Nat) (candidate : Str)
  | unregistering (pre : DirPrefix) (attempt : Nat) (candidate : Str)
  | deleting (dir : Str)
  | forgetting (dir : Str)

inductive JanitorPhase where
  | waiting
  | sweeping (toDelete : List Str)
  | unlinking (path : Str) (toDelete : List Str)
  | removing (path : Str) (toDelete : List Str)
  | stopped

/-- `live` is not in the source: the directories that `create_dir` has returned and that were not
yet passed to `delete_dir`. -/
structure TmpDirManager where
  saveTemps : Bool
  dirs : List Str
  disk : TmpDisk
  live : List Str
  main : MainPhase
  janitor : JanitorPhase

namespace TmpDirManager

def maxRetries : Nat := 10000

def alphabet : Str := "abcdefghijklmnopqrstuvwxyzABCDEFGHIJKLMNOPQRSTUVWXYZ0123456789".toList

def randomLength : Nat := 6

/-- The suffixes of an attempt: none at first, then what `_random_suffix` may return. -/
def isSuffix (attempt : Nat) : Str → Bool
  | [] => attempt = 0
  | c :: cs => attempt ≠ 0 && c = '-' && cs.length = randomLength && cs.all (· ∈ alphabet)

inductive MainEvent where
  | createDir (pre : DirPrefix)
  | checkExists (suffix : Str)
  | existsFails
  | giveUp
  | register
  | makeDir (succeeds : Bool)
  | unregister
  | deleteDir (dir : Str)
  | remove (r : Removal)
  | forget

/-- A step of `create_dir` or `delete_dir`. An exception ends the call. -/
def mainStep (t : TmpDirManager) (e : MainEvent) : Option TmpDirManager :=
  match t.main, e with
  | .idle, .createDir pre => some { t with main := .trying pre 0 }
  | .trying pre attempt, .checkExists suffix =>
    if attempt < maxRetries ∧ isSuffix attempt suffix then
      if t.disk.pathExists (pre.text ++ suffix) then some { t with main := .trying pre (attempt + 1) }
      else some { t with main := .registering pre attempt (pre.text ++ suffix) }
    else none
  | .trying _ attempt, .existsFails =>
    if attempt < maxRetries then some { t with main := .idle } else none
  | .trying _ attempt, .giveUp =>
    if attempt < maxRetries then none else some { t with main := .idle }
  | .registering pre attempt candidate, .register =>
    if candidate ∈ t.dirs then some { t with main := .trying pre (attempt + 1) }
    else some { t with dirs := t.dirs ++ [candidate], main := .making pre attempt candidate }
  | .making pre attempt candidate, .makeDir succeeds =>
    -- `FileExistsError`; any other error leaves the candidate registered
    if t.disk.has ⟨candidate, []⟩ then some { t with main := .unregistering pre attempt candidate }
    else if succeeds then
      some { t with
        disk := t.disk ++ [(⟨candidate, []⟩, .dir)]
        live := t.live ++ [candidate]
        main := .idle }
    else some { t with main := .idle }
  | .unregistering pre attempt candidate, .unregister =>
    some { t with dirs := t.dirs.filter (· ≠ candidate), main := .trying pre (attempt + 1) }
  | .idle, .deleteDir dir =>
    if dir ∈ t.dirs then
      if t.saveTemps then some { t with live := t.live.filter (· ≠ dir) }
      else some { t with live := t.live.filter (· ≠ dir), main := .deleting dir }
    else some t
  | .deleting dir, .remove r =>
    (rmtreeStep t.disk dir r).map fun result =>
      { t with disk := result.1, main := if result.2 then .forgetting dir else .deleting dir }
  | .forgetting dir, .forget =>
    some { t with dirs := t.dirs.filter (· ≠ dir), main := .idle }
  | _, _ => none

inductive JanitorEvent where
  | snapshot
  | take (path : Str)
  | unlink (succeeds : Bool)
  | remove (r : Removal)
  | finish
  | stop

/-- A step of `_janitor_thread_main`. A failed `unlink` raises, which ends the thread. -/
def janitorStep (t : TmpDirManager) (e : JanitorEvent) : Option TmpDirManager :=
  match t.janitor, e with
  | .waiting, .snapshot =>
    some { t with janitor := .sweeping (t.disk.names.filter (· ∉ t.dirs)) }
  | .sweeping toDelete, .take path =>
    if path ∈ toDelete then
      let rest := toDelete.filter (· ≠ path)
      some { t with
        janitor := if (⟨path, []⟩, .file) ∈ t.disk then .unlinking path rest
          else .removing path rest }
    else none
  | .unlinking path toDelete, .unlink succeeds =>
    if succeeds then
      some { t with disk := t.disk.remove ⟨path, []⟩, janitor := .sweeping toDelete }
    else some { t with janitor := .stopped }
  | .removing path toDelete, .remove r =>
    (rmtreeStep t.disk path r).map fun result =>
      { t with
        disk := result.1
        janitor := if result.2 then .sweeping toDelete else .removing path toDelete }
  | .sweeping [], .finish => some { t with janitor := .waiting }
  | .waiting, .stop => some { t with janitor := .stopped }
  | _, _ => none

/-- What other processes do: they create entries, and delete entries inside of directories. -/
inductive WorkerEvent where
  | create (path : TmpPath) (kind : EntryKind)
  | remove (path : TmpPath)

def workerStep (t : TmpDirManager) : WorkerEvent → Option TmpDirManager
  | .create path kind =>
    if t.disk.has path then none
    else if path.below = [] ∨ (⟨path.name, path.below.dropLast⟩, .dir) ∈ t.disk then
      some { t with disk := t.disk ++ [(path, kind)] }
    else none
  | .remove path =>
    if path.below ≠ [] ∧ t.disk.removable path then some { t with disk := t.disk.remove path }
    else none

inductive Event where
  | main (e : MainEvent)
  | janitor (e : JanitorEvent)
  | worker (e : WorkerEvent)

def step (t : TmpDirManager) : Event → Option TmpDirManager
  | .main e => t.mainStep e
  | .janitor e => t.janitorStep e
  | .worker e => t.workerStep e

def start (saveTemps : Bool) : TmpDirManager :=
  { saveTemps, dirs := [], disk := [], live := [], main := .idle, janitor := .waiting }

end TmpDirManager

end Cvise
