import Cvise.Cache
import Cvise.CopyTestCase
import Cvise.JanitorSafety
import Cvise.RecentKeys

namespace Cvise
set_option autoImplicit true

/-- A temporary directory manager between its calls, with what is below each directory. -/
structure TmpRoot where
  saveTemps : Bool
  dirs : List Str
  folders : Str → Option FsDisk

namespace TmpRoot

def pathExists (r : TmpRoot) (name : Str) : Bool :=
  name ∈ ["".toList, ".".toList, "..".toList] || (r.folders name).isSome

/-- A new directory, registered. -/
def make (r : TmpRoot) (dir : Str) : TmpRoot :=
  { r with
    dirs := r.dirs ++ [dir]
    folders := fun d => if d = dir then some emptyFolder else r.folders d }

/-- `create_dir` with the suffixes that it tries, which are random but the first one. -/
def createDir (r : TmpRoot) (pre : DirPrefix) : Nat → List Str → Option (Str × TmpRoot)
  | _, [] => none
  | attempt, suffix :: suffixes =>
    if attempt < TmpDirManager.maxRetries ∧ TmpDirManager.isSuffix attempt suffix then
      if r.pathExists (pre.text ++ suffix) || pre.text ++ suffix ∈ r.dirs then
        r.createDir pre (attempt + 1) suffixes
      else some (pre.text ++ suffix, r.make (pre.text ++ suffix))
    else none

/-- `delete_dir`; `left` is what `rmtree` leaves of the directory. -/
def deleteDir (r : TmpRoot) (dir : Str) (left : Option FsDisk) : Except PyErr TmpRoot :=
  if dir ∉ r.dirs then .error .assertionError
  else if r.saveTemps then .ok r
  else .ok { r with
    dirs := r.dirs.filter (· ≠ dir)
    folders := fun d => if d = dir then left else r.folders d }

theorem deleteDir_spec {r r' : TmpRoot} (h : r.deleteDir dir left = .ok r') :
    r'.saveTemps = r.saveTemps ∧
      (∀ d, d ≠ dir → (d ∈ r'.dirs ↔ d ∈ r.dirs) ∧ r'.folders d = r.folders d) ∧
        (r.saveTemps = true ∧ r' = r ∨
          r.saveTemps = false ∧ dir ∉ r'.dirs ∧ r'.folders dir = left) := by
  rw [deleteDir] at h
  split at h
  · cases h
  · split at h
    · rename_i hsave
      cases h
      exact ⟨rfl, fun _ _ => ⟨.rfl, rfl⟩, .inl ⟨hsave, rfl⟩⟩
    · rename_i hsave
      cases h
      refine ⟨rfl, fun d hd => ⟨?_, if_neg hd⟩, .inr ⟨Bool.not_eq_true _ ▸ hsave, ?_, if_pos rfl⟩⟩
      · rw [List.mem_filter]
        exact and_iff_left (decide_eq_true hd)
      · intro hmem
        exact of_decide_eq_true (List.mem_filter.1 hmem).2 rfl

/-- The name of a new directory was neither taken nor registered. -/
theorem createDir_spec {r : TmpRoot} {attempt : Nat} {suffixes : List Str}
    (h : r.createDir pre attempt suffixes = some (dir, r')) :
    dir ∉ r.dirs ∧ r.folders dir = none ∧ r' = r.make dir := by
  induction suffixes generalizing attempt with
  | nil => cases h
  | cons suffix suffixes ih =>
    rw [createDir] at h
    split at h
    · split at h
      · exact ih h
      · rename_i htaken
        cases h
        rw [Bool.or_eq_true, not_or, decide_eq_true_eq, pathExists, Bool.or_eq_true, not_or,
          Option.isSome_iff_ne_none, not_not] at htaken
        exact ⟨htaken.2, htaken.1.2, rfl⟩
    · cases h

/-- A name that is free stays so when directories go. -/
theorem createDir_mono {r r' : TmpRoot} {attempt : Nat} {suffixes : List Str}
    (hdirs : ∀ d ∈ r'.dirs, d ∈ r.dirs)
    (hfolders : ∀ d, (r'.folders d).isSome → (r.folders d).isSome)
    (h : (r.createDir pre attempt suffixes).isSome) :
    (r'.createDir pre attempt suffixes).isSome := by
  induction suffixes generalizing attempt with
  | nil => exact h
  | cons suffix suffixes ih =>
    rw [createDir] at h ⊢
    split at h
    · rename_i hvalid
      rw [if_pos hvalid]
      split
      · split at h
        · exact ih h
        · rename_i htaken hfree
          simp only [pathExists, Bool.or_eq_true, decide_eq_true_eq] at htaken hfree
          refine absurd ?_ hfree
          exact htaken.imp (fun hexists => hexists.imp_right (hfolders _)) (hdirs _)
      · rfl
    · cases h

end TmpRoot

/-- A call of `Cache.add`: the key of the pass group, the hash, the test case, and what happens to
the directories. -/
structure AddCall where
  key : Str
  hashBefore : Bytes
  pathAfter : SourceCase
  suffixes : List Str
  left : Option FsDisk

/-- `_Item`. The number of the call that added it and the test case are not in the source. -/
structure DirItem where
  tmpDir : Str
  path : RelPath
  serial : Nat
  source : SourceCase

/-- `Cache` with its directories. `deleted` and `count` are not in the source: the items whose
directory was passed to `delete_dir`, and how many calls there were. -/
structure DirCache where
  root : TmpRoot
  groups : Str → Dict Bytes DirItem
  deleted : List Nat
  count : Nat

namespace DirCache

theorem slash_not_mem_cache : '/' ∉ "cache".toList := by decide

def cachePrefix : DirPrefix := ⟨"cache".toList, slash_not_mem_cache⟩

def start (saveTemps : Bool) : DirCache :=
  { root := ⟨saveTemps, [], fun _ => none⟩, groups := fun _ => [], deleted := [], count := 0 }

def setGroup (c : DirCache) (key : Str) (mapping : Dict Bytes DirItem) : Str → Dict Bytes DirItem :=
  fun k => if k = key then mapping else c.groups k

def lookup (c : DirCache) (key : Str) (hashBefore : Bytes) : Option (Str × RelPath) :=
  ((c.groups key).find? (·.1 = hashBefore)).map fun e => (e.2.tmpDir, e.2.path)

/-- The item that makes room. -/
def evicted (mapping : Dict Bytes DirItem) (hashBefore : Bytes) : Option (Bytes × DirItem) :=
  if mapping.any (·.1 = hashBefore) then mapping.find? (·.1 = hashBefore)
  else if mapping.length ≥ Cache.maxItemsPerPassGroup then mapping.head?
  else none

def deleteItem (c : DirCache) (key : Str) (e : Bytes × DirItem) (left : Option FsDisk) :
    Except PyErr DirCache :=
  match c.root.deleteDir e.2.tmpDir left with
  | .error err => .error err
  | .ok root => .ok { c with
      root := root
      groups := c.setGroup key ((c.groups key).filter (·.1 ≠ e.1))
      deleted := c.deleted ++ [e.2.serial] }

/-- The insertion of an item that has no other in its place, and the copy into its directory. -/
def insertItem (c : DirCache) (call : AddCall) : Except PyErr DirCache :=
  match c.root.createDir cachePrefix 0 call.suffixes with
  | none => .error .osError
  | some (dir, root) =>
    match copyTestCase emptyFolder call.pathAfter with
    | .error err => .error err
    | .ok disk => .ok { c with
        root := { root with folders := fun d => if d = dir then some disk else root.folders d }
        groups := c.setGroup call.key (c.groups call.key ++
          [(call.hashBefore, ⟨dir, call.pathAfter.path, c.count, call.pathAfter⟩)])
        count := c.count + 1 }

/-- The eviction before an insertion. -/
def makeRoom (c : DirCache) (call : AddCall) : Except PyErr DirCache :=
  match evicted (c.groups call.key) call.hashBefore with
  | none => .ok c
  | some e => c.deleteItem call.key e call.left

def add (c : DirCache) (call : AddCall) : Except PyErr DirCache :=
  match c.makeRoom call with
  | .error err => .error err
  | .ok c => c.insertItem call

def addAll (c : DirCache) : List AddCall → Except PyErr DirCache
  | [] => .ok c
  | call :: calls =>
    match c.add call with
    | .error err => .error err
    | .ok c => c.addAll calls

/-- What was added to a group, the latest first. -/
def added (key : Str) (calls : List AddCall) : List (Bytes × SourceCase) :=
  (calls.filter (·.key = key)).reverse.map fun call => (call.hashBefore, call.pathAfter)

/-- What a group is to hold: what was added last for the three hashes that were added last. -/
def expected (key : Str) (calls : List AddCall) : List (Bytes × SourceCase) :=
  (recent (added key calls)).take Cache.maxItemsPerPassGroup

/-- The directories and items of a cache: each item has a directory of its own with what was copied
there, and every item that is no longer held had its directory deleted once. -/
structure Tidy (c : DirCache) (clean : Prop) : Prop where
  apart : ∀ k k' e e', e ∈ c.groups k → e' ∈ c.groups k' → e.2.tmpDir = e'.2.tmpDir →
    k = k' ∧ e = e'
  numbered : ∀ k k' e e', e ∈ c.groups k → e' ∈ c.groups k' → e.2.serial = e'.2.serial →
    k = k' ∧ e = e'
  known : ∀ k e, e ∈ c.groups k → e.2.tmpDir ∈ c.root.dirs
  stored : ∀ k e, e ∈ c.groups k → e.2.path = e.2.source.path ∧
    ∃ disk, c.root.folders e.2.tmpDir = some disk ∧ HoldsCopy disk e.2.source
  owned : c.root.saveTemps = false → ∀ d ∈ c.root.dirs, ∃ k e, e ∈ c.groups k ∧ e.2.tmpDir = d
  tidied : clean → ∀ d, c.root.folders d ≠ none → d ∈ c.root.dirs
  below : ∀ k e, e ∈ c.groups k → e.2.serial < c.count
  once : c.deleted.Nodup
  gone : ∀ n, n ∈ c.deleted ↔ n < c.count ∧ ∀ k e, e ∈ c.groups k → e.2.serial ≠ n

theorem tidy_start (saveTemps : Bool) : Tidy (start saveTemps) clean where
  apart _ _ _ _ he := absurd he List.not_mem_nil
  numbered _ _ _ _ he := absurd he List.not_mem_nil
  known _ _ he := absurd he List.not_mem_nil
  stored _ _ he := absurd he List.not_mem_nil
  owned _ _ hd := absurd hd List.not_mem_nil
  tidied _ _ hd := absurd rfl hd
  below _ _ he := absurd he List.not_mem_nil
  once := List.nodup_nil
  gone n := ⟨fun hn => absurd hn List.not_mem_nil, fun hn => absurd hn.1 (Nat.not_lt_zero n)⟩

section
variable {c c' : DirCache} {call : AddCall} {mapping : Dict Bytes DirItem}

theorem mem_setGroup : e ∈ c.setGroup key mapping k ↔
    k = key ∧ e ∈ mapping ∨ k ≠ key ∧ e ∈ c.groups k := by
  rw [setGroup]
  split
  · rename_i heq
    exact ⟨fun he => .inl ⟨heq, he⟩, fun he => he.elim And.right fun hne => absurd heq hne.1⟩
  · rename_i hne
    exact ⟨fun he => .inr ⟨hne, he⟩, fun he => he.elim (fun heq => absurd heq.1 hne) And.right⟩

/-- What is held after an item was deleted: all the others. -/
theorem mem_without (hnodup : ((c.groups key).map Prod.fst).Nodup) (hitem : item ∈ c.groups key) :
    e ∈ c.setGroup key ((c.groups key).filter (·.1 ≠ item.1)) k ↔
      e ∈ c.groups k ∧ ¬ (k = key ∧ e = item) := by
  rw [mem_setGroup]
  constructor
  · intro h
    rcases h with ⟨hk, he⟩ | ⟨hk, he⟩
    · subst hk
      obtain ⟨hmem, hne⟩ := List.mem_filter.1 he
      exact ⟨hmem, fun h => of_decide_eq_true hne (h.2 ▸ rfl)⟩
    · exact ⟨he, fun h => hk h.1⟩
  · intro h
    obtain ⟨hmem, hne⟩ := h
    by_cases hk : k = key
    · subst hk
      refine .inl ⟨rfl, List.mem_filter.2 ⟨hmem, decide_eq_true fun hkey => ?_⟩⟩
      exact hne ⟨rfl, List.inj_on_of_nodup_map hnodup hmem hitem hkey⟩
    · exact .inr ⟨hk, hmem⟩

theorem mem_with : e ∈ c.setGroup key (c.groups key ++ [item]) k ↔
    e ∈ c.groups k ∨ k = key ∧ e = item := by
  rw [mem_setGroup, List.mem_append, List.mem_singleton]
  constructor
  · intro h
    rcases h with ⟨hk, hold | hlast⟩ | ⟨_, hold⟩
    · exact .inl (hk ▸ hold)
    · exact .inr ⟨hk, hlast⟩
    · exact .inl hold
  · intro h
    rcases h with hold | ⟨hk, hlast⟩
    · by_cases hk : k = key
      · exact .inl ⟨hk, .inl (hk ▸ hold)⟩
      · exact .inr ⟨hk, hold⟩
    · exact .inl ⟨hk, .inr hlast⟩

theorem Tidy.deleteItem (h : Tidy c clean) (hnodup : ((c.groups key).map Prod.fst).Nodup)
    (hitem : item ∈ c.groups key) (hleft : clean → left = none)
    (hok : c.deleteItem key item left = .ok c') : Tidy c' clean := by
  rw [DirCache.deleteItem] at hok
  cases hdelete : c.root.deleteDir item.2.tmpDir left with
  | error err =>
    rw [hdelete] at hok
    cases hok
  | ok root =>
    rw [hdelete] at hok
    cases hok
    obtain ⟨hsave, hothers, hgone⟩ := TmpRoot.deleteDir_spec hdelete
    have hmem := @mem_without c key item
    have hother : ∀ {k e}, e ∈ c.groups k → ¬ (k = key ∧ e = item) →
        e.2.tmpDir ≠ item.2.tmpDir := fun he hne hdir => hne (h.apart _ _ _ _ he hitem hdir)
    refine ⟨?_, ?_, ?_, ?_, ?_, ?_, ?_, ?_, ?_⟩
    · intro k k' e e' he he' hdir
      exact h.apart k k' e e' ((hmem hnodup hitem).1 he).1 ((hmem hnodup hitem).1 he').1 hdir
    · intro k k' e e' he he' hserial
      exact h.numbered k k' e e' ((hmem hnodup hitem).1 he).1 ((hmem hnodup hitem).1 he').1 hserial
    · intro k e he
      obtain ⟨he, hne⟩ := (hmem hnodup hitem).1 he
      exact ((hothers _ (hother he hne)).1).2 (h.known k e he)
    · intro k e he
      obtain ⟨he, hne⟩ := (hmem hnodup hitem).1 he
      obtain ⟨hpath, disk, hdisk, hholds⟩ := h.stored k e he
      exact ⟨hpath, disk, ((hothers _ (hother he hne)).2).trans hdisk, hholds⟩
    · intro hsaves d hd
      have hsaves : root.saveTemps = false := hsaves
      rw [hsave] at hsaves
      rcases hgone with hkept | ⟨_, hnot, _⟩
      · rw [hkept.1] at hsaves
        cases hsaves
      · have hd : d ∈ root.dirs := hd
        have hne : d ≠ item.2.tmpDir := fun heq => hnot (heq ▸ hd)
        obtain ⟨k, e, he, hdir⟩ := h.owned hsaves d ((hothers d hne).1.1 hd)
        refine ⟨k, e, (hmem hnodup hitem).2 ⟨he, fun heq => hne ?_⟩, hdir⟩
        rw [← hdir, heq.2]
    · intro hclean d hd
      have hd : root.folders d ≠ none := hd
      show d ∈ root.dirs
      rcases hgone with ⟨_, hsame⟩ | ⟨_, _, hfolder⟩
      · rw [hsame] at hd ⊢
        exact h.tidied hclean d hd
      · by_cases hdir : d = item.2.tmpDir
        · rw [hdir, hfolder, hleft hclean] at hd
          exact absurd rfl hd
        · rw [(hothers d hdir).2] at hd
          exact (hothers d hdir).1.2 (h.tidied hclean d hd)
    · intro k e he
      exact h.below k e ((hmem hnodup hitem).1 he).1
    · show (c.deleted ++ [item.2.serial]).Nodup
      rw [List.nodup_append]
      refine ⟨h.once, List.pairwise_singleton _ _, fun n hn n' hn' heq => ?_⟩
      rw [List.mem_singleton.1 hn'] at heq
      exact ((h.gone n).1 hn).2 key item hitem heq.symm
    · intro n
      rw [List.mem_append, h.gone n, List.mem_singleton]
      constructor
      · intro hn
        rcases hn with ⟨hlt, hnone⟩ | hn
        · exact ⟨hlt, fun k e he => hnone k e ((hmem hnodup hitem).1 he).1⟩
        · subst hn
          refine ⟨h.below key item hitem, fun k e he hserial => ?_⟩
          obtain ⟨he, hne⟩ := (hmem hnodup hitem).1 he
          exact hne (h.numbered _ _ _ _ he hitem hserial)
      · intro hn
        obtain ⟨hlt, hnone⟩ := hn
        by_cases heq : n = item.2.serial
        · exact .inr heq
        · refine .inl ⟨hlt, fun k e he hserial => ?_⟩
          refine hnone k e ((hmem hnodup hitem).2 ⟨he, fun hitem' => heq ?_⟩) hserial
          rw [← hserial, hitem'.2]

theorem Tidy.insertItem (h : Tidy c clean) (hok : c.insertItem call = .ok c') : Tidy c' clean := by
  rw [DirCache.insertItem] at hok
  cases hcreate : c.root.createDir cachePrefix 0 call.suffixes with
  | none =>
    rw [hcreate] at hok
    cases hok
  | some made =>
    rw [hcreate] at hok
    cases hcopy : copyTestCase emptyFolder call.pathAfter with
    | error err =>
      rw [hcopy] at hok
      cases hok
    | ok disk =>
      rw [hcopy] at hok
      cases hok
      obtain ⟨hnew, hfolder, hroot⟩ := TmpRoot.createDir_spec hcreate
      obtain ⟨dir, root⟩ := made
      have hroot : root = c.root.make dir := hroot
      have hnew : dir ∉ c.root.dirs := hnew
      subst hroot
      have hheld : ∀ {k e}, e ∈ c.setGroup call.key (c.groups call.key ++
          [(call.hashBefore, ⟨dir, call.pathAfter.path, c.count, call.pathAfter⟩)]) k ↔
            e ∈ c.groups k ∨ k = call.key ∧
              e = (call.hashBefore, ⟨dir, call.pathAfter.path, c.count, call.pathAfter⟩) :=
        mem_with
      have hother : ∀ {k e}, e ∈ c.groups k → e.2.tmpDir ≠ dir := fun he heq =>
        hnew (heq ▸ h.known _ _ he)
      have hsmaller : ∀ {k e}, e ∈ c.groups k → e.2.serial ≠ c.count := fun he heq =>
        Nat.lt_irrefl _ (heq ▸ h.below _ _ he)
      refine ⟨?_, ?_, ?_, ?_, ?_, ?_, ?_, h.once, ?_⟩
      · intro k k' e e' he he' hdir
        rcases hheld.1 he with he | ⟨hk, he⟩
        · rcases hheld.1 he' with he' | ⟨hk', he'⟩
          · exact h.apart k k' e e' he he' hdir
          · subst he'
            exact absurd hdir (hother he)
        · rcases hheld.1 he' with he' | ⟨hk', he'⟩
          · subst he
            exact absurd hdir.symm (hother he')
          · exact ⟨hk.trans hk'.symm, he.trans he'.symm⟩
      · intro k k' e e' he he' hserial
        rcases hheld.1 he with he | ⟨hk, he⟩
        · rcases hheld.1 he' with he' | ⟨hk', he'⟩
          · exact h.numbered k k' e e' he he' hserial
          · subst he'
            exact absurd hserial (hsmaller he)
        · rcases hheld.1 he' with he' | ⟨hk', he'⟩
          · subst he
            exact absurd hserial.symm (hsmaller he')
          · exact ⟨hk.trans hk'.symm, he.trans he'.symm⟩
      · intro k e he
        rcases hheld.1 he with he | ⟨_, he⟩
        · exact List.mem_append_left _ (h.known k e he)
        · subst he
          exact List.mem_append_right _ List.mem_cons_self
      · intro k e he
        rcases hheld.1 he with he | ⟨_, he⟩
        · obtain ⟨hpath, d, hd, hholds⟩ := h.stored k e he
          refine ⟨hpath, d, ?_, hholds⟩
          exact ((if_neg (hother he)).trans (if_neg (hother he))).trans hd
        · subst he
          exact ⟨rfl, disk, if_pos rfl, holdsCopy_of_copied hcopy⟩
      · intro hsave d hd
        rcases List.mem_append.1 hd with hold | hlast
        · obtain ⟨k, e, he, hdir⟩ := h.owned hsave d hold
          exact ⟨k, e, hheld.2 (.inl he), hdir⟩
        · exact ⟨call.key, _, hheld.2 (.inr ⟨rfl, rfl⟩), (List.mem_singleton.1 hlast).symm⟩
      · intro hclean d hd
        by_cases hdir : d = dir
        · rw [hdir]
          exact List.mem_append_right _ List.mem_cons_self
        · apply List.mem_append_left
          apply h.tidied hclean d
          intro hnone
          exact hd (((if_neg hdir).trans (if_neg hdir)).trans hnone)
      · intro k e he
        rcases hheld.1 he with he | ⟨_, he⟩
        · exact Nat.lt_succ_of_lt (h.below k e he)
        · subst he
          exact Nat.lt_succ_self _
      · intro n
        rw [h.gone n]
        constructor
        · intro hn
          refine ⟨Nat.lt_succ_of_lt hn.1, fun k e he hserial => ?_⟩
          rcases hheld.1 he with he | ⟨_, he⟩
          · exact hn.2 k e he hserial
          · subst he
            exact absurd hserial.symm (Nat.ne_of_lt hn.1)
        · intro hn
          have hne : n ≠ c.count := fun heq =>
            hn.2 call.key _ (hheld.2 (.inr ⟨rfl, rfl⟩)) heq.symm
          have hlt : n < c.count + 1 := hn.1
          exact ⟨by omega, fun k e he => hn.2 k e (hheld.2 (.inl he))⟩

theorem insertItem_groups (h : c.insertItem call = .ok c') : ∃ item : DirItem,
    item.source = call.pathAfter ∧ c'.count = c.count + 1 ∧
      c'.root.saveTemps = c.root.saveTemps ∧ c'.groups =
        c.setGroup call.key (c.groups call.key ++ [(call.hashBefore, item)]) := by
  rw [insertItem] at h
  cases hcreate : c.root.createDir cachePrefix 0 call.suffixes with
  | none =>
    rw [hcreate] at h
    cases h
  | some made =>
    rw [hcreate] at h
    cases hcopy : copyTestCase emptyFolder call.pathAfter with
    | error err =>
      rw [hcopy] at h
      cases h
    | ok disk =>
      rw [hcopy] at h
      cases h
      have hsave := congrArg TmpRoot.saveTemps (TmpRoot.createDir_spec hcreate).2.2
      exact ⟨_, rfl, rfl, hsave, rfl⟩

theorem deleteItem_groups (h : c.deleteItem key item left = .ok c') : c'.count = c.count ∧
    c'.root.saveTemps = c.root.saveTemps ∧
      c'.groups = c.setGroup key ((c.groups key).filter (·.1 ≠ item.1)) := by
  rw [deleteItem] at h
  cases hdelete : c.root.deleteDir item.2.tmpDir left with
  | error err =>
    rw [hdelete] at h
    cases h
  | ok root =>
    rw [hdelete] at h
    cases h
    exact ⟨rfl, (TmpRoot.deleteDir_spec hdelete).1, rfl⟩

theorem evicted_mem (h : evicted mapping digest = some item) : item ∈ mapping := by
  rw [evicted] at h
  split at h
  · exact List.mem_of_find?_eq_some h
  · split at h
    · exact List.mem_of_head? h
    · cases h

/-- Without the item that makes room, the new one at the end makes the bounded map. -/
theorem putBounded_evicted (hnodup : (mapping.map Prod.fst).Nodup) (e : Bytes × DirItem) :
    putBounded Cache.maxItemsPerPassGroup mapping e =
      (match evicted mapping e.1 with
        | none => mapping
        | some item => mapping.filter (·.1 ≠ item.1)) ++ [e] := by
  rw [putBounded, evicted]
  congr 1
  split
  · rename_i hany
    obtain ⟨a, ha, hkey⟩ := List.mem_map.1 (any_key_iff.1 hany)
    have hfind := find?_of_mem hnodup ha
    rw [hkey] at hfind
    rw [hfind, ← hkey]
  · split
    · rename_i hlen
      cases mapping with
      | nil => exact absurd hlen (by decide)
      | cons a mapping =>
        rw [List.map_cons, List.nodup_cons] at hnodup
        have hneg : ¬ decide (a.1 ≠ a.1) = true := fun hd => of_decide_eq_true hd rfl
        show mapping = (a :: mapping).filter (·.1 ≠ a.1)
        rw [List.filter_cons, if_neg hneg, filter_of_not_mem hnodup.1]
    · rfl

theorem makeRoom_groups (h : c.makeRoom call = .ok c') : c'.count = c.count ∧
    c'.root.saveTemps = c.root.saveTemps ∧ c'.groups = c.setGroup call.key
      (match evicted (c.groups call.key) call.hashBefore with
        | none => c.groups call.key
        | some item => (c.groups call.key).filter (·.1 ≠ item.1)) := by
  rw [makeRoom] at h
  cases hevict : evicted (c.groups call.key) call.hashBefore with
  | none =>
    rw [hevict] at h
    cases h
    refine ⟨rfl, rfl, funext fun k => ?_⟩
    rw [setGroup]
    split
    · rename_i hk
      rw [hk]
    · rfl
  | some e =>
    rw [hevict] at h
    exact deleteItem_groups h

theorem add_ok (h : c.add call = .ok c') :
    ∃ c₁, c.makeRoom call = .ok c₁ ∧ c₁.insertItem call = .ok c' := by
  rw [add] at h
  cases hroom : c.makeRoom call with
  | error err =>
    rw [hroom] at h
    cases h
  | ok c₁ =>
    rw [hroom] at h
    exact ⟨c₁, rfl, h⟩

theorem add_groups (hnodup : ((c.groups call.key).map Prod.fst).Nodup) (h : c.add call = .ok c') :
    ∃ item : DirItem, item.source = call.pathAfter ∧ c'.count = c.count + 1 ∧
      c'.root.saveTemps = c.root.saveTemps ∧ c'.groups = c.setGroup call.key
        (putBounded Cache.maxItemsPerPassGroup (c.groups call.key) (call.hashBefore, item)) := by
  obtain ⟨c₁, hroom, hinsert⟩ := add_ok h
  obtain ⟨hcount₁, hsave₁, hgroups₁⟩ := makeRoom_groups hroom
  obtain ⟨item, hsource, hcount, hsave, hgroups⟩ := insertItem_groups hinsert
  refine ⟨item, hsource, hcount.trans (congrArg Nat.succ hcount₁), hsave.trans hsave₁, ?_⟩
  rw [putBounded_evicted hnodup, hgroups]
  funext k
  rw [setGroup, setGroup, hgroups₁, setGroup, if_pos rfl]
  split
  · rfl
  · rename_i hk
    exact if_neg hk

/-- The cache after a list of calls. -/
structure Sound (c : DirCache) (saveTemps : Bool) (calls : List AddCall) : Prop where
  holds : ∀ key, (c.groups key).map (fun e => (e.1, e.2.source)) = (expected key calls).reverse
  count : c.count = calls.length
  saves : c.root.saveTemps = saveTemps
  tidy : Tidy c (∀ call ∈ calls, call.left = none)

theorem expected_nodup (key : Str) (calls : List AddCall) :
    ((expected key calls).map Prod.fst).Nodup :=
  (recent_nodup (added key calls)).sublist ((List.take_sublist _ _).map _)

theorem Sound.nodup (h : Sound c saveTemps calls) (key : Str) :
    ((c.groups key).map Prod.fst).Nodup := by
  have hkeys := congrArg (List.map Prod.fst) (h.holds key)
  rw [List.map_map, List.map_reverse] at hkeys
  have heq : (c.groups key).map Prod.fst = ((expected key calls).map Prod.fst).reverse := hkeys
  rw [heq, List.nodup_reverse]
  exact expected_nodup key calls

theorem added_append (key : Str) (calls : List AddCall) (call : AddCall) :
    added key (calls ++ [call]) = if call.key = key
      then (call.hashBefore, call.pathAfter) :: added key calls else added key calls := by
  rw [added, List.filter_append, List.reverse_append, List.map_append]
  split
  · rename_i hkey
    rw [List.filter_cons, if_pos (decide_eq_true hkey)]
    rfl
  · rename_i hkey
    rw [List.filter_cons, if_neg (fun hd => hkey (of_decide_eq_true hd))]
    rfl

theorem Tidy.mono (h : Tidy c clean) (hclean : clean' → clean) : Tidy c clean' :=
  { h with tidied := fun hc => h.tidied (hclean hc) }

theorem Tidy.add (h : Tidy c clean) (hnodup : ((c.groups call.key).map Prod.fst).Nodup)
    (hleft : clean → call.left = none) (hok : c.add call = .ok c') : Tidy c' clean := by
  obtain ⟨c₁, hroom, hinsert⟩ := add_ok hok
  apply Tidy.insertItem _ hinsert
  rw [makeRoom] at hroom
  cases hevict : evicted (c.groups call.key) call.hashBefore with
  | none =>
    rw [hevict] at hroom
    cases hroom
    exact h
  | some e =>
    rw [hevict] at hroom
    exact h.deleteItem hnodup (evicted_mem hevict) hleft hroom

theorem Sound.add (h : Sound c saveTemps calls) (hok : c.add call = .ok c') :
    Sound c' saveTemps (calls ++ [call]) := by
  have hnodup := h.nodup call.key
  obtain ⟨item, hsource, hcount, hsave, hgroups⟩ := add_groups hnodup hok
  refine ⟨fun key => ?_, ?_, hsave.trans h.saves, ?_⟩
  · rw [hgroups, setGroup, expected, added_append]
    by_cases hkey : key = call.key
    · rw [if_pos hkey, if_pos hkey.symm, putBounded_map (fun i : DirItem => i.source),
        ← hkey, h.holds key, hsource]
      exact putBounded_recent 2 (added key calls) _
    · rw [if_neg hkey, if_neg (fun heq => hkey heq.symm)]
      exact h.holds key
  · rw [hcount, h.count, List.length_append, List.length_singleton]
  · have hclean : (∀ a ∈ calls ++ [call], a.left = none) →
        (∀ a ∈ calls, a.left = none) := fun hall a ha => hall a (List.mem_append_left _ ha)
    exact (h.tidy.mono hclean).add hnodup
      (fun hall => hall call (List.mem_append_right _ List.mem_cons_self)) hok

theorem sound_start (saveTemps : Bool) : Sound (start saveTemps) saveTemps [] :=
  ⟨fun _ => rfl, rfl, rfl, tidy_start saveTemps⟩

theorem Sound.addAll (h : Sound c saveTemps calls) (hok : c.addAll more = .ok c') :
    Sound c' saveTemps (calls ++ more) := by
  induction more generalizing c calls with
  | nil =>
    cases hok
    rw [List.append_nil]
    exact h
  | cons call more ih =>
    rw [DirCache.addAll] at hok
    cases hadd : c.add call with
    | error err =>
      rw [hadd] at hok
      cases hok
    | ok c₁ =>
      rw [hadd] at hok
      rw [List.append_cons]
      exact ih (h.add hadd) hok

/-- The directory is that of an item. -/
def Held (c : DirCache) (d : Str) : Prop := ∃ k e, e ∈ c.groups k ∧ e.2.tmpDir = d

theorem Sound.lookup_some (h : Sound c saveTemps calls) (he : e ∈ expected key calls) :
    ∃ dir disk, c.lookup key e.1 = some (dir, e.2.path) ∧ c.root.folders dir = some disk ∧
      HoldsCopy disk e.2 := by
  have hmem := List.mem_reverse.2 he
  rw [← h.holds key] at hmem
  obtain ⟨a, ha, heq⟩ := List.mem_map.1 hmem
  cases heq
  obtain ⟨hpath, disk, hdisk, hholds⟩ := h.tidy.stored key a ha
  refine ⟨a.2.tmpDir, disk, ?_, hdisk, hholds⟩
  rw [lookup, find?_of_mem (h.nodup key) ha, Option.map_some, hpath]

theorem Sound.lookup_none (h : Sound c saveTemps calls)
    (hnot : digest ∉ (expected key calls).map Prod.fst) : c.lookup key digest = none := by
  rw [lookup, Option.map_eq_none_iff, List.find?_eq_none]
  intro a ha hkey
  have hmem : (a.1, a.2.source) ∈ (c.groups key).map (fun e => (e.1, e.2.source)) :=
    List.mem_map_of_mem ha
  rw [h.holds key, List.mem_reverse] at hmem
  exact hnot (of_decide_eq_true hkey ▸ List.mem_map_of_mem hmem)

theorem Sound.dirs_iff (h : Sound c false calls) (d : Str) : d ∈ c.root.dirs ↔ c.Held d := by
  constructor
  · exact h.tidy.owned h.saves d
  · intro hheld
    obtain ⟨k, e, he, hdir⟩ := hheld
    exact hdir ▸ h.tidy.known k e he

/-- A call whose copy succeeds and for which there is a new name returns. -/
theorem Sound.add_returns (h : Sound c saveTemps calls)
    (hname : (c.root.createDir cachePrefix 0 call.suffixes).isSome)
    (hcopy : copyTestCase emptyFolder call.pathAfter = .ok disk) : ∃ c', c.add call = .ok c' := by
  have hinsert : ∀ c₁ : DirCache, (c₁.root.createDir cachePrefix 0 call.suffixes).isSome →
      ∃ c', c₁.insertItem call = .ok c' := by
    intro c₁ hsome
    obtain ⟨made, hmade⟩ := Option.isSome_iff_exists.1 hsome
    rw [insertItem, hmade, hcopy]
    exact ⟨_, rfl⟩
  have hadd : ∀ c₁ : DirCache, c.makeRoom call = .ok c₁ →
      (c₁.root.createDir cachePrefix 0 call.suffixes).isSome → ∃ c', c.add call = .ok c' := by
    intro c₁ hroom hsome
    rw [DirCache.add, hroom]
    exact hinsert c₁ hsome
  cases hevict : evicted (c.groups call.key) call.hashBefore with
  | none =>
    apply hadd c _ hname
    rw [makeRoom, hevict]
  | some e =>
    have hmem := evicted_mem hevict
    have hknown := h.tidy.known _ e hmem
    obtain ⟨_, d, hfolder, _⟩ := h.tidy.stored _ e hmem
    cases hdelete : c.root.deleteDir e.2.tmpDir call.left with
    | error err =>
      rw [TmpRoot.deleteDir, if_neg (fun hnot => hnot hknown)] at hdelete
      split at hdelete
      · cases hdelete
      · cases hdelete
    | ok root =>
      obtain ⟨_, hothers, hgone⟩ := TmpRoot.deleteDir_spec hdelete
      have hsome : (root.createDir cachePrefix 0 call.suffixes).isSome := by
        refine TmpRoot.createDir_mono (fun d hd => ?_) (fun d hd => ?_) hname
        · by_cases hdir : d = e.2.tmpDir
          · exact hdir ▸ hknown
          · exact (hothers d hdir).1.1 hd
        · by_cases hdir : d = e.2.tmpDir
          · rw [hdir, hfolder]
            rfl
          · rw [← (hothers d hdir).2]
            exact hd
      apply hadd { c with
        root := root
        groups := c.setGroup call.key ((c.groups call.key).filter (·.1 ≠ e.1))
        deleted := c.deleted ++ [e.2.serial] } _ hsome
      rw [makeRoom, hevict]
      show c.deleteItem call.key e call.left = _
      rw [deleteItem, hdelete]

/-- After any calls of `add` each group holds what was added last for the three hashes that were
added last, each in a directory of its own; all other items had their directory deleted once, and
unless temporaries are saved there are no other directories. -/
theorem addAll_keeps_recent (h : (start saveTemps).addAll calls = .ok c) :
    (∀ key, (c.groups key).map (fun e => (e.1, e.2.source)) = (expected key calls).reverse) ∧
      (∀ key, ∀ e ∈ expected key calls, ∃ dir disk, c.lookup key e.1 = some (dir, e.2.path) ∧
        c.root.folders dir = some disk ∧ HoldsCopy disk e.2) ∧
      (∀ key digest, digest ∉ (expected key calls).map Prod.fst → c.lookup key digest = none) ∧
      (c.deleted.Nodup ∧ ∀ n, n ∈ c.deleted ↔
        n < calls.length ∧ ∀ k e, e ∈ c.groups k → e.2.serial ≠ n) ∧
      (saveTemps = false → (∀ d, d ∈ c.root.dirs ↔ c.Held d) ∧
        ((∀ call ∈ calls, call.left = none) → ∀ d, (c.root.folders d).isSome ↔ c.Held d)) ∧
      ∀ call disk, (c.root.createDir cachePrefix 0 call.suffixes).isSome →
        copyTestCase emptyFolder call.pathAfter = .ok disk → ∃ c', c.add call = .ok c' := by
  have hsound := (sound_start saveTemps).addAll h
  rw [List.nil_append] at hsound
  refine ⟨hsound.holds, fun key e he => hsound.lookup_some he,
    fun key digest hnot => hsound.lookup_none hnot, ⟨hsound.tidy.once, ?_⟩, ?_,
    fun call disk hname hcopy => hsound.add_returns hname hcopy⟩
  · rw [← hsound.count]
    exact hsound.tidy.gone
  · intro hsave
    subst hsave
    refine ⟨hsound.dirs_iff, fun hall d => ⟨fun hd => ?_, fun hd => ?_⟩⟩
    · exact (hsound.dirs_iff d).1 (hsound.tidy.tidied hall d (Option.isSome_iff_ne_none.1 hd))
    · obtain ⟨k, e, he, hdir⟩ := hd
      obtain ⟨_, disk, hdisk, _⟩ := hsound.tidy.stored k e he
      rw [← hdir, hdisk]
      rfl

def addCall (digest : UInt8) : AddCall where
  key := "[[]]".toList
  hashBefore := [digest]
  pathAfter := directFile
  suffixes := [[], "-aaaaaa".toList, "-bbbbbb".toList]
  left := none

/-- The first hash is added again, so the second one is evicted by the fourth. -/
theorem addAll_keeps_recent_five :
    ∃ c, (start false).addAll ([1, 2, 3, 1, 4].map addCall) = .ok c ∧
      (c.lookup "[[]]".toList [2] = none ∧ c.deleted = [0, 1]) ∧
      (∀ key, (c.groups key).map (fun e => (e.1, e.2.source)) =
        (expected key ([1, 2, 3, 1, 4].map addCall)).reverse) := by
  have hrun : ∃ c, (start false).addAll ([1, 2, 3, 1, 4].map addCall) = .ok c ∧
      c.deleted = [0, 1] ∧ c.lookup "[[]]".toList [2] = none := ⟨_, rfl, rfl, rfl⟩
  obtain ⟨c, hok, hdeleted, hlookup⟩ := hrun
  exact ⟨c, hok, ⟨hlookup, hdeleted⟩, (addAll_keeps_recent hok).1⟩

/-- With saved temporaries the directory of an item that was replaced stays. -/
theorem replaced_directory_stays : ¬ ∀ saveTemps calls c,
    (∀ call ∈ calls, call.left = none) → (start saveTemps).addAll calls = .ok c →
      ∀ d, (c.root.folders d).isSome ↔ c.Held d := by
  intro h
  have hrun : ∃ c, (start true).addAll ([1, 1].map addCall) = .ok c ∧
      (c.root.folders "cache".toList).isSome ∧
      (c.groups "[[]]".toList).map (·.2.tmpDir) = ["cache-aaaaaa".toList] ∧
      ∀ k, k ≠ "[[]]".toList → c.groups k = [] := by
    refine ⟨_, rfl, rfl, rfl, fun k hk => ?_⟩
    exact (if_neg hk).trans ((if_neg hk).trans (if_neg hk))
  obtain ⟨c, hok, hsome, hgroup, hothers⟩ := hrun
  have hleft : ∀ call ∈ [1, 1].map addCall, call.left = none := by
    intro call hcall
    obtain ⟨_, _, heq⟩ := List.mem_map.1 hcall
    rw [← heq]
    rfl
  obtain ⟨k, e, he, hdir⟩ := (h true _ c hleft hok "cache".toList).1 hsome
  by_cases hk : k = "[[]]".toList
  · subst hk
    have hmem : e.2.tmpDir ∈ (c.groups "[[]]".toList).map (·.2.tmpDir) := List.mem_map_of_mem he
    rw [hgroup, List.mem_singleton, hdir] at hmem
    exact absurd hmem (by decide)
  · rw [hothers k hk] at he
    exact absurd he List.not_mem_nil

end

end DirCache

end Cvise
