import Cvise.Text
import Mathlib.Data.List.Nodup

namespace Cvise
set_option autoImplicit true

theorem dropLast_lt {p : RelPath} (h : p ≠ []) : p.dropLast < p := by
  have hlt : p.dropLast ++ [] < p.dropLast ++ [p.getLast h] :=
    List.append_left_lt (List.nil_lt_cons _ _)
  rwa [List.append_nil, List.dropLast_append_getLast] at hlt

/-- What a symlink resolves to, and the entries of its tree that it is resolved through, the one it
leads to among them. -/
inductive LinkDest where
  | file (via : List RelPath) (data : Bytes)
  | dir (via : List RelPath)
  | broken
deriving DecidableEq

inductive Entry where
  | file (data : Bytes)
  | dir
  | symlink (text : Str) (dest : LinkDest)
deriving DecidableEq

namespace Entry

/-- `Path.is_dir()`, which follows symlinks. -/
def isDir : Entry → Bool
  | .dir => true
  | .symlink _ (.dir _) => true
  | _ => false

/-- `Path.is_file()`, which follows symlinks. -/
def isFile : Entry → Bool
  | .file _ => true
  | .symlink _ (.file _ _) => true
  | _ => false

def isSymlink : Entry → Bool
  | .symlink _ _ => true
  | _ => false

/-- `Path.read_bytes()`. -/
def readBytes : Entry → Except PyErr Bytes
  | .file data => .ok data
  | .symlink _ (.file _ data) => .ok data
  | .symlink _ .broken => .error .fileNotFoundError
  | _ => .error .osError

/-- `Path.lstat().st_size`; for a symlink it is the length of its text. -/
def lstatSize : Entry → Nat
  | .file data => data.length
  | .dir => 0
  | .symlink text _ => (encode text).length

end Entry

/-- The entry at path `p` of a listing, as the operating system finds it. -/
def lookupEntry (entries : List (RelPath × Entry)) (p : RelPath) : Option Entry :=
  (entries.find? (·.1 = p)).map Prod.snd

/-- A directory tree as `sorted(root.rglob('*'))` lists it: in path order, every entry after the
directory that holds it. -/
structure DirTree where
  entries : List (RelPath × Entry)
  sorted : entries.Pairwise fun a b => a.1 < b.1
  rooted : ∀ e ∈ entries, e.1 ≠ [] ∧ (e.1.dropLast = [] ∨ (e.1.dropLast, Entry.dir) ∈ entries)
deriving DecidableEq

def DirTree.empty : DirTree := ⟨[], List.Pairwise.nil, by simp⟩

/-- Whether an entry can be created at `p`, after all entries that are already there. -/
def DirTree.Accepts (t : DirTree) (p : RelPath) : Prop :=
  p ≠ [] ∧ (p.dropLast = [] ∨ (p.dropLast, Entry.dir) ∈ t.entries) ∧ ∀ e ∈ t.entries, e.1 < p

instance (t : DirTree) (p : RelPath) : Decidable (t.Accepts p) :=
  inferInstanceAs (Decidable (_ ∧ _ ∧ _))

def DirTree.push (t : DirTree) (p : RelPath) (e : Entry) (h : t.Accepts p) : DirTree where
  entries := t.entries ++ [(p, e)]
  sorted := by
    refine List.pairwise_append.2 ⟨t.sorted, List.pairwise_singleton _ _, fun a ha b hb => ?_⟩
    rw [List.mem_singleton.1 hb]
    exact h.2.2 a ha
  rooted := by
    intro a ha
    rcases List.mem_append.1 ha with ha | ha
    · obtain ⟨hn, hr⟩ := t.rooted a ha
      exact ⟨hn, hr.imp_right (List.mem_append_left _)⟩
    · rw [List.mem_singleton.1 ha]
      exact ⟨h.1, h.2.1.imp_right (List.mem_append_left _)⟩

/-- `Path.mkdir()` and `Path.write_bytes()` on a path whose parent may be missing. -/
def DirTree.create (t : DirTree) (p : RelPath) (e : Entry) : Except PyErr DirTree :=
  if h : t.Accepts p then .ok (t.push p e h) else .error .fileNotFoundError

theorem DirTree.create_entries {t t' : DirTree} (h : t.create p e = .ok t') :
    t'.entries = t.entries ++ [(p, e)] := by
  rw [DirTree.create] at h
  split at h
  · cases h
    rfl
  · cases h

theorem lookupEntry_some {t : DirTree} {path : RelPath} {entry : Entry} :
    lookupEntry t.entries path = some entry ↔ (path, entry) ∈ t.entries := by
  have hnodup : (t.entries.map Prod.fst).Nodup :=
    List.pairwise_map.2 (t.sorted.imp fun hlt => hlt.ne)
  rw [lookupEntry, Option.map_eq_some_iff]
  constructor
  · rintro ⟨e, hfind, rfl⟩
    have hpath : e.1 = path := by simpa using List.find?_some hfind
    rw [← hpath]
    exact List.mem_of_find?_eq_some hfind
  · intro hmem
    obtain ⟨e, hfind⟩ := Option.isSome_iff_exists.1 (List.find?_isSome
      (p := fun e : RelPath × Entry => decide (e.1 = path)) |>.2 ⟨_, hmem, decide_eq_true rfl⟩)
    have hpath : e.1 = path := by simpa using List.find?_some hfind
    have he := List.inj_on_of_nodup_map hnodup (List.mem_of_find?_eq_some hfind) hmem hpath
    exact ⟨e, hfind, congrArg Prod.snd he⟩

/-- The contents of a test case, which is a single file or a directory. -/
inductive TestCase where
  | file (data : Bytes)
  | dir (tree : DirTree)
deriving DecidableEq

namespace TestCase

/-- `Path.is_dir()`. -/
def isDir : TestCase → Bool
  | .file _ => false
  | .dir _ => true

/-- `sorted(test_case.rglob('*'))` with each path relative to the test case. -/
def descendants : TestCase → List (RelPath × Entry)
  | .file _ => []
  | .dir t => t.entries

/-- `(test_case / p).read_bytes()`. Files outside of the test case are not part of the model. -/
def readBytes : TestCase → RelPath → Except PyErr Bytes
  | .file data, [] => .ok data
  | .file _, _ => .error .osError
  | .dir _, [] => .error .osError
  | .dir t, p =>
    match lookupEntry t.entries p with
    | some e => e.readBytes
    | none => .error .fileNotFoundError

/-- The test case has a regular file with these contents at this path. -/
def HasFile : TestCase → RelPath → Bytes → Prop
  | .file d, p, data => p = [] ∧ d = data
  | .dir t, p, data => (p, Entry.file data) ∈ t.entries

def getFileSize : TestCase → Nat
  | .file data => data.length
  | .dir t => ((t.entries.filter fun e => e.2.isFile && !e.2.isSymlink).map (·.2.lstatSize)).sum

/-- `filecmp.cmp`, which answers `False` unless both arguments are regular files. It takes files
with the same type, size and modification time for equal without reading them. -/
def filecmpCmp (sameMtime : Bool) : TestCase → TestCase → Bool
  | .file a, .file b => sameMtime && a.length == b.length || a == b
  | _, _ => false

end TestCase

/-- The entries that `shutil.copytree` makes of one. It follows a symlink, and what `linked` has for it
is in the directory that it leads to; a symlink that leads nowhere makes the copy fail. -/
def Entry.copies (linked : RelPath → Option (List (RelPath × Option Bytes))) (p : RelPath) :
    Entry → Option (List (RelPath × Entry))
  | .file data => some [(p, .file data)]
  | .dir => some [(p, .dir)]
  | .symlink _ (.file _ data) => some [(p, .file data)]
  | .symlink _ (.dir _) => (linked p).map fun below =>
      (p, .dir) :: below.map fun x => (p ++ x.1, (x.2.map Entry.file).getD .dir)
  | .symlink _ .broken => none

def DirTree.createAll (t : DirTree) : List (RelPath × Entry) → Option DirTree
  | [] => some t
  | e :: es =>
    match t.create e.1 e.2 with
    | .ok t' => t'.createAll es
    | .error _ => none

def copyEntries (linked : RelPath → Option (List (RelPath × Option Bytes))) :
    List (RelPath × Entry) → Option (List (RelPath × Entry))
  | [] => some []
  | e :: es => do
    let copied ← e.2.copies linked e.1
    let rest ← copyEntries linked es
    return copied ++ rest

/-- `copy_test_case`: the copy, unless it fails with an `OSError`. -/
def TestCase.copy (linked : RelPath → Option (List (RelPath × Option Bytes))) :
    TestCase → Option TestCase
  | .file data => some (.file data)
  | .dir t => do
    let entries ← copyEntries linked t.entries
    let t' ← DirTree.empty.createAll entries
    return .dir t'

def TestCase.Plain (tc : TestCase) : Prop := ∀ e ∈ tc.descendants, e.2.isSymlink = false

instance (tc : TestCase) : Decidable tc.Plain := inferInstanceAs (Decidable (∀ _ ∈ _, _))

theorem DirTree.createAll_entries {t t' : DirTree} {es : List (RelPath × Entry)}
    (h : t.createAll es = some t') : t'.entries = t.entries ++ es := by
  induction es generalizing t with
  | nil =>
    cases h
    exact (List.append_nil _).symm
  | cons e es ih =>
    rw [createAll] at h
    split at h
    · rename_i u hu
      rw [ih h, create_entries hu, List.append_assoc]
      rfl
    · cases h

/-- The entries of a tree can be created one after another. -/
theorem DirTree.createAll_eq {t u : DirTree} {es : List (RelPath × Entry)}
    (h : t.entries = u.entries ++ es) : u.createAll es = some t := by
  induction es generalizing u with
  | nil =>
    rw [List.append_nil] at h
    cases t
    cases u
    cases h
    rfl
  | cons e es ih =>
    have hmem : e ∈ t.entries := by
      rw [h]
      exact List.mem_append_right _ List.mem_cons_self
    have hbefore := List.pairwise_append.1 (h ▸ t.sorted)
    have haccepts : u.Accepts e.1 := by
      obtain ⟨hn, hr⟩ := t.rooted e hmem
      refine ⟨hn, hr.imp_right fun hd => ?_, fun x hx => hbefore.2.2 x hx e List.mem_cons_self⟩
      rw [h] at hd
      -- What holds the entry cannot come after it.
      rcases List.mem_append.1 hd with hd | hd
      · exact hd
      · have hlt := dropLast_lt hn
        rcases List.mem_cons.1 hd with heq | hd
        · exact absurd (congrArg Prod.fst heq) hlt.ne
        · exact absurd ((List.pairwise_cons.1 hbefore.2.1).1 _ hd) hlt.not_gt
    rw [createAll, create, dif_pos haccepts]
    exact ih (by rw [h, push, List.append_assoc]; rfl)

theorem copyEntries_plain {linked : RelPath → Option (List (RelPath × Option Bytes))}
    {es : List (RelPath × Entry)} (h : ∀ e ∈ es, e.2.isSymlink = false) :
    copyEntries linked es = some es := by
  induction es with
  | nil => rfl
  | cons e es ih =>
    obtain ⟨he, hes⟩ := List.forall_mem_cons.1 h
    obtain ⟨p, e⟩ := e
    have hentry : e.copies linked p = some [(p, e)] := by
      cases e with
      | symlink text dest => cases he
      | file data => rfl
      | dir => rfl
    rw [copyEntries, ih hes, hentry]
    rfl

theorem plain_of_copyEntries {linked : RelPath → Option (List (RelPath × Option Bytes))}
    {es copied : List (RelPath × Entry)} (h : copyEntries linked es = some copied) :
    ∀ e ∈ copied, e.2.isSymlink = false := by
  induction es generalizing copied with
  | nil =>
    cases h
    exact fun e he => absurd he List.not_mem_nil
  | cons e es ih =>
    obtain ⟨first, hfirst, h⟩ := Option.bind_eq_some_iff.1 h
    obtain ⟨rest, hrest, h⟩ := Option.bind_eq_some_iff.1 h
    cases h
    intro x hx
    rcases List.mem_append.1 hx with hx | hx
    · obtain ⟨p, e⟩ := e
      cases e with
      | file data =>
        cases hfirst
        rw [List.mem_singleton.1 hx]
        rfl
      | dir =>
        cases hfirst
        rw [List.mem_singleton.1 hx]
        rfl
      | symlink text dest =>
        cases dest with
        | file via data =>
          cases hfirst
          rw [List.mem_singleton.1 hx]
          rfl
        | broken => cases hfirst
        | dir via =>
          obtain ⟨below, _, rfl⟩ := Option.map_eq_some_iff.1 hfirst
          rcases List.mem_cons.1 hx with rfl | hx
          · rfl
          · obtain ⟨⟨q, data⟩, _, rfl⟩ := List.mem_map.1 hx
            cases data <;> rfl
    · exact ih hrest x hx

namespace TestCase
variable {tc tc' : TestCase} {linked : RelPath → Option (List (RelPath × Option Bytes))}

theorem plain_of_copy (h : tc.copy linked = some tc') : tc'.Plain := by
  cases tc with
  | file data =>
    cases h
    exact fun e he => absurd he List.not_mem_nil
  | dir t =>
    obtain ⟨entries, hentries, h⟩ := Option.bind_eq_some_iff.1 h
    obtain ⟨t', ht', h⟩ := Option.bind_eq_some_iff.1 h
    cases h
    rw [Plain, descendants, DirTree.createAll_entries ht']
    exact plain_of_copyEntries hentries

/-- Just a test case without symlinks is copied as it is. -/
theorem copy_eq_self : tc.copy linked = some tc ↔ tc.Plain := by
  refine ⟨plain_of_copy, fun h => ?_⟩
  cases tc with
  | file data => rfl
  | dir t =>
    have hentries : copyEntries linked t.entries = some t.entries := copyEntries_plain h
    rw [copy, hentries, Option.bind_eq_bind, Option.bind_some,
      DirTree.createAll_eq (List.nil_append _).symm]
    rfl

theorem eq_of_copy_file (h : tc.copy linked = some (.file data)) : tc = .file data := by
  cases tc with
  | file original =>
    cases h
    rfl
  | dir t =>
    obtain ⟨entries, _, h⟩ := Option.bind_eq_some_iff.1 h
    obtain ⟨t', _, h⟩ := Option.bind_eq_some_iff.1 h
    cases h

end TestCase

/-- What the symlink resolves to when some paths are gone. -/
def LinkDest.without (gone : List RelPath) : LinkDest → LinkDest
  | .file via data => if ∃ p ∈ gone, p ∈ via then .broken else .file via data
  | .dir via => if ∃ p ∈ gone, p ∈ via then .broken else .dir via
  | .broken => .broken

def Entry.without (gone : List RelPath) : Entry → Entry
  | .symlink text dest => .symlink text (dest.without gone)
  | e => e

/-- The tree without a path that nothing is below. -/
def DirTree.without (t : DirTree) (p : RelPath) (h : ∀ x ∈ t.entries, x.1.dropLast ≠ p) :
    DirTree where
  entries := (t.entries.filter (·.1 ≠ p)).map fun x => (x.1, x.2.without [p])
  sorted := List.pairwise_map.2 (t.sorted.filter _)
  rooted := by
    intro y hy
    obtain ⟨x, hx, rfl⟩ := List.mem_map.1 hy
    have hmem := (List.mem_filter.1 hx).1
    obtain ⟨hn, hr⟩ := t.rooted x hmem
    refine ⟨hn, hr.imp_right fun hd => List.mem_map.2 ⟨_, List.mem_filter.2 ⟨hd, ?_⟩, rfl⟩⟩
    exact decide_eq_true (h x hmem)

/-- `rmdir()` of a directory and `unlink()` of anything else. The former fails for a symlink to a
directory and for a directory that still holds something. -/
def DirTree.remove (t : DirTree) (p : RelPath) : Except PyErr DirTree :=
  match lookupEntry t.entries p with
  | none => .error .fileNotFoundError
  | some e =>
    if e.isDir ∧ e.isSymlink then .error .osError
    else if h : ∀ x ∈ t.entries, x.1.dropLast ≠ p then .ok (t.without p h)
    else .error .osError

/-- The loop of `remove_extraneous_files`; an exception leaves what it removed so far. -/
def DirTree.removeExtraneous (t : DirTree) (expectedPaths : List RelPath) :
    List RelPath → DirTree × Option PyErr
  | [] => (t, none)
  | p :: ps =>
    if p ∈ expectedPaths then t.removeExtraneous expectedPaths ps
    else match t.remove p with
      | .ok t' => t'.removeExtraneous expectedPaths ps
      | .error err => (t, some err)

/-- `fileutil.remove_extraneous_files`, children before their directories. -/
def TestCase.removeExtraneousFiles (expectedPaths : List RelPath) :
    TestCase → TestCase × Option PyErr
  | .file data => (.file data, none)
  | .dir t =>
    let (t', err) := t.removeExtraneous expectedPaths (t.entries.map Prod.fst).reverse
    (.dir t', err)

theorem DirTree.removeExtraneous_eq {t : DirTree} {expectedPaths ps : List RelPath}
    (h : ∀ p ∈ ps, p ∈ expectedPaths) : t.removeExtraneous expectedPaths ps = (t, none) := by
  induction ps with
  | nil => rfl
  | cons p ps ih =>
    obtain ⟨hp, hps⟩ := List.forall_mem_cons.1 h
    rw [removeExtraneous, if_pos hp, ih hps]

/-- Nothing is removed from a test case all of whose paths are expected. -/
theorem TestCase.removeExtraneousFiles_eq {tc : TestCase} {expectedPaths : List RelPath}
    (h : ∀ e ∈ tc.descendants, e.1 ∈ expectedPaths) :
    tc.removeExtraneousFiles expectedPaths = (tc, none) := by
  cases tc with
  | file data => rfl
  | dir t =>
    have h' : ∀ p ∈ (t.entries.map Prod.fst).reverse, p ∈ expectedPaths := by
      intro p hp
      obtain ⟨e, he, rfl⟩ := List.mem_map.1 (List.mem_reverse.1 hp)
      exact h e he
    rw [removeExtraneousFiles, DirTree.removeExtraneous_eq h']

end Cvise
