import Cvise.Text
import Mathlib.Data.List.Induction

namespace Cvise
set_option autoImplicit true

inductive FsNode where
  | file (data : Bytes)
  | dir
deriving DecidableEq

/-- What is at each path below a folder; the empty path is the folder itself. -/
abbrev FsDisk := RelPath → Option FsNode

/-- An entry of a directory as `copytree` sees it, which follows symlinks. -/
inductive SeenEntry where
  | file (data : Bytes)
  | dir
  | dangling
deriving DecidableEq

def SeenEntry.node : SeenEntry → Option FsNode
  | .file data => some (.file data)
  | .dir => some .dir
  | .dangling => none

/-- The entries below a directory in the order in which `copytree` comes to them, each after the
directory that holds it. -/
structure SeenTree where
  entries : List (RelPath × SeenEntry)
  rooted : ∀ l e r, entries = l ++ e :: r → e.1 ≠ [] ∧
    (e.1.dropLast = [] ∨ (e.1.dropLast, SeenEntry.dir) ∈ l) ∧ e.1 ∉ l.map Prod.fst

inductive SourceContents where
  | file (data : Bytes)
  | dir (tree : SeenTree)

/-- A test case: a relative path that leads into the working directory, and what is there. The
working directory itself is not a file. -/
structure SourceCase where
  path : RelPath
  contents : SourceContents
  inside : ∀ c ∈ path, c ≠ "..".toList ∧ '/' ∉ c
  file_ne_nil : ∀ data, contents = .file data → path ≠ []

/-- What is found at a path below a directory. -/
def findEntry (entries : List (RelPath × SeenEntry)) (q : RelPath) : Option FsNode :=
  (entries.find? (·.1 = q)).bind (·.2.node)

namespace SourceContents

/-- What is found at a path below the test case. -/
def find : SourceContents → RelPath → Option FsNode
  | .file data, q => if q = [] then some (.file data) else none
  | .dir tree, q => if q = [] then some .dir else findEntry tree.entries q

end SourceContents

namespace FsDisk

def put (disk : FsDisk) (p : RelPath) (n : FsNode) : FsDisk :=
  fun q => if q = p then some n else disk q

end FsDisk

/-- A new directory. -/
def emptyFolder : FsDisk := fun q => if q = [] then some .dir else none

/-- `os.mkdir`. -/
def osMkdir (disk : FsDisk) (p : RelPath) : Except PyErr FsDisk :=
  if disk p ≠ none then .error .osError
  else if disk p.dropLast = some .dir then .ok (disk.put p .dir)
  else .error .fileNotFoundError

/-- `os.makedirs` of the path whose parts are given from the last one on. -/
def osMakedirs (disk : FsDisk) : List Str → Except PyErr FsDisk
  | [] => osMkdir disk []
  | name :: head =>
    if (disk head.reverse).isSome then osMkdir disk (name :: head).reverse
    else do
      let disk ← osMakedirs disk head
      osMkdir disk (name :: head).reverse

/-- `shutil.copy2` of a file. Into a directory it is copied under its own name. -/
def copy2 (disk : FsDisk) (data : Bytes) (p : RelPath) : Except PyErr FsDisk :=
  let dst := if disk p = some .dir then p ++ p.getLast?.toList else p
  if disk dst = some .dir then .error .osError
  else if disk dst.dropLast = some .dir then .ok (disk.put dst (.file data))
  else .error .fileNotFoundError

/-- What `shutil.copytree` does for an entry. -/
def copySeen (disk : FsDisk) (p : RelPath) : SeenEntry → Except PyErr FsDisk
  | .file data => copy2 disk data p
  | .dir => osMakedirs disk p.reverse
  | .dangling => .error .fileNotFoundError

/-- A round of `shutil.copytree`, which goes on after an error. -/
def copyEntry (p : RelPath) (acc : FsDisk × Bool) (e : RelPath × SeenEntry) : FsDisk × Bool :=
  match copySeen acc.1 (p ++ e.1) e.2 with
  | .ok disk => (disk, acc.2)
  | .error _ => (acc.1, true)

/-- `shutil.copytree`, whose errors are raised at its end. -/
def copytree (disk : FsDisk) (tree : SeenTree) (p : RelPath) : Except PyErr FsDisk := do
  let disk ← osMakedirs disk p.reverse
  let (disk, failed) := tree.entries.foldl (copyEntry p) (disk, false)
  if failed then .error .osError else .ok disk

/-- `copy_test_case`, to a folder. -/
def copyTestCase (disk : FsDisk) (c : SourceCase) : Except PyErr FsDisk :=
  match c.contents with
  | .dir tree => copytree disk tree c.path
  | .file data => copy2 disk data c.path

def isCopied (current : RelPath) (shouldCopyCurrent : Bool) (c : SourceCase) : Bool :=
  decide (c.path ≠ current) || shouldCopyCurrent

/-- `TestEnvironment.copy_test_cases`, with all test cases in the order of the set. -/
def copyTestCases (current : RelPath) (shouldCopyCurrent : Bool) :
    FsDisk → List SourceCase → Except PyErr FsDisk
  | disk, [] => .ok disk
  | disk, c :: cases =>
    if isCopied current shouldCopyCurrent c then do
      let disk ← copyTestCase disk c
      copyTestCases current shouldCopyCurrent disk cases
    else copyTestCases current shouldCopyCurrent disk cases

/-- The test case is below the folder as it is below the working directory. -/
def HoldsCopy (disk : FsDisk) (c : SourceCase) : Prop := ∀ q, disk (c.path ++ q) = c.contents.find q

def NoneInside (cases : List SourceCase) : Prop :=
  cases.Pairwise fun c d => ¬ c.path <+: d.path ∧ ¬ d.path <+: c.path

/-- Any of the test cases can be copied to an empty directory, and all of them to the folder of a
job, in any order and with any of them left out as the current one. -/
def AllCopied (cases : List SourceCase) : Prop :=
  (∀ order, order.Perm cases → ∀ current shouldCopyCurrent,
    ∃ disk, copyTestCases current shouldCopyCurrent emptyFolder order = .ok disk ∧
      ∀ c ∈ order, isCopied current shouldCopyCurrent c → HoldsCopy disk c) ∧
    ∀ c ∈ cases, ∃ disk, copyTestCase emptyFolder c = .ok disk ∧ HoldsCopy disk c

/-- A file in the working directory, or a directory below it without dangling symlinks. -/
def SourceCase.Direct (c : SourceCase) : Prop :=
  match c.contents with
  | .file _ => c.path.length = 1
  | .dir tree => c.path ≠ [] ∧ ∀ e ∈ tree.entries, e.2 ≠ .dangling

namespace FsDisk

variable {disk : FsDisk} {p q : RelPath}

theorem put_self : disk.put p n p = some n := if_pos rfl

theorem put_of_ne (h : q ≠ p) : disk.put p n q = disk q := if_neg h

end FsDisk

section
variable {disk : FsDisk} {p q : RelPath}

theorem osMkdir_ok (hnew : disk p = none) (hparent : disk p.dropLast = some .dir) :
    osMkdir disk p = .ok (disk.put p .dir) := by
  rw [osMkdir, if_neg (fun h => h hnew), if_pos hparent]

theorem copy2_new (hnew : disk p = none) (hparent : disk p.dropLast = some .dir) :
    copy2 disk data p = .ok (disk.put p (.file data)) := by
  have hdir : disk p ≠ some .dir := hnew ▸ (Option.some_ne_none _).symm
  rw [copy2, if_neg hdir, if_neg hdir, if_pos hparent]

theorem osMakedirs_of_parent (hne : p ≠ []) (hnew : disk p = none)
    (hparent : disk p.dropLast = some .dir) : osMakedirs disk p.reverse = .ok (disk.put p .dir) := by
  obtain ⟨head, name, hp⟩ := List.eq_nil_or_concat p |>.resolve_left hne
  rw [List.concat_eq_append] at hp
  subst hp
  rw [List.dropLast_concat] at hparent
  rw [List.reverse_append, List.reverse_singleton, List.singleton_append, osMakedirs,
    List.reverse_reverse, if_pos (by rw [hparent]; rfl), List.reverse_cons, List.reverse_reverse]
  apply osMkdir_ok hnew
  rw [List.dropLast_concat]
  exact hparent

/-- What `makedirs` leaves: the new directory, and the missing ones that lead to it. -/
structure MadeDirs (disk disk' : FsDisk) (p : RelPath) : Prop where
  made : disk' p = some .dir
  others : ∀ q, q ≠ p → disk' q = disk q ∨ disk q = none ∧ disk' q = some .dir ∧ q <+: p

theorem osMakedirs_spec (up : List Str) (hroot : disk [] = some .dir)
    (hnew : disk up.reverse = none)
    (hlead : ∀ q, q <+: up.reverse → q ≠ up.reverse → disk q = none ∨ disk q = some .dir) :
    ∃ disk', osMakedirs disk up = .ok disk' ∧ MadeDirs disk disk' up.reverse := by
  induction up with
  | nil => exact absurd (hroot.symm.trans hnew) (Option.some_ne_none _)
  | cons name head ih =>
    rw [List.reverse_cons] at hnew hlead ⊢
    have hhead : head.reverse <+: head.reverse ++ [name] := List.prefix_append _ _
    have hne : ∀ q : RelPath, q <+: head.reverse → q ≠ head.reverse ++ [name] := by
      intro q hq heq
      have hle := hq.length_le
      rw [heq, List.length_append, List.length_singleton] at hle
      omega
    have hdrop : (head.reverse ++ [name]).dropLast = head.reverse := List.dropLast_concat
    rw [osMakedirs]
    split
    · rename_i hsome
      have hparent : disk head.reverse = some .dir := by
        rcases hlead _ hhead (hne _ (List.prefix_refl _)) with hnone | hdir
        · rw [hnone] at hsome
          cases hsome
        · exact hdir
      refine ⟨_, ?_, FsDisk.put_self, fun q hq => .inl (FsDisk.put_of_ne hq)⟩
      rw [List.reverse_cons]
      exact osMkdir_ok hnew (by rw [hdrop]; exact hparent)
    · rename_i hnone
      have hnone : disk head.reverse = none := Option.not_isSome_iff_eq_none.1 hnone
      obtain ⟨disk', hok, hmade⟩ := ih hnone fun q hq _ => hlead q (hq.trans hhead) (hne q hq)
      have hnew' : disk' (head.reverse ++ [name]) = none := by
        have hself := hne _ (List.prefix_refl head.reverse)
        rcases hmade.others _ hself.symm with hsame | ⟨_, _, hpre⟩
        · exact hsame.trans hnew
        · exact absurd rfl (hne _ hpre)
      refine ⟨disk'.put (head.reverse ++ [name]) .dir, ?_, FsDisk.put_self, fun q hq => ?_⟩
      · rw [hok, List.reverse_cons]
        exact osMkdir_ok hnew' (by rw [hdrop]; exact hmade.made)
      · rw [FsDisk.put_of_ne hq]
        by_cases heq : q = head.reverse
        · subst heq
          exact .inr ⟨hnone, hmade.made, hhead⟩
        · rcases hmade.others q heq with hsame | ⟨hold, hdir, hpre⟩
          · exact .inl hsame
          · exact .inr ⟨hold, hdir, hpre.trans hhead⟩

theorem findEntry_append {l : List (RelPath × SeenEntry)} (hnew : e.1 ∉ l.map Prod.fst) :
    findEntry (l ++ [e]) q = if q = e.1 then e.2.node else findEntry l q := by
  rw [findEntry, List.find?_append]
  split
  · rename_i heq
    have hnone : l.find? (·.1 = q) = none := by
      rw [List.find?_eq_none]
      intro a ha hkey
      exact hnew (List.mem_map.2 ⟨a, ha, (of_decide_eq_true hkey).trans heq⟩)
    have hlast : [e].find? (·.1 = q) = some e := by
      rw [List.find?_singleton, if_pos (decide_eq_true heq.symm)]
    rw [hnone, Option.none_or, hlast, Option.bind_some]
  · rename_i hne
    have hlast : [e].find? (·.1 = q) = none := by
      rw [List.find?_cons_of_neg (by rw [decide_eq_true_eq]; exact fun h => hne h.symm),
        List.find?_nil]
    rw [hlast, Option.or_none, findEntry]

/-- The disk after some entries of a directory have been copied to `p`. -/
structure CopiedEntries (disk disk' : FsDisk) (p : RelPath) (l : List (RelPath × SeenEntry)) :
    Prop where
  holds : ∀ s, s ≠ [] → disk' (p ++ s) = findEntry l s
  dirs : ∀ s, (s, SeenEntry.dir) ∈ l → disk' (p ++ s) = some .dir
  others : ∀ q, (∀ s, s ≠ [] → q ≠ p ++ s) → disk' q = disk q

theorem CopiedEntries.put {l : List (RelPath × SeenEntry)} (h : CopiedEntries disk disk' p l)
    (hne : e.1 ≠ []) (hnew : e.1 ∉ l.map Prod.fst) (hnode : e.2.node = some n) :
    CopiedEntries disk (disk'.put (p ++ e.1) n) p (l ++ [e]) := by
  refine ⟨fun s hs => ?_, fun s hs => ?_, fun q hq => ?_⟩
  · rw [findEntry_append hnew]
    split
    · rename_i heq
      rw [heq, FsDisk.put_self, hnode]
    · rename_i hne
      rw [FsDisk.put_of_ne (fun heq => hne (List.append_cancel_left heq)), h.holds s hs]
  · rcases List.mem_append.1 hs with hold | hlast
    · rw [FsDisk.put_of_ne, h.dirs s hold]
      intro heq
      exact hnew (List.mem_map.2 ⟨_, hold, List.append_cancel_left heq⟩)
    · have he := List.mem_singleton.1 hlast
      subst he
      cases hnode
      exact FsDisk.put_self
  · rw [FsDisk.put_of_ne (hq e.1 hne), h.others q hq]

/-- No dangling symlink, so every entry is copied: what holds it was copied before. -/
theorem foldl_copyEntry {tree : SeenTree} (hp : disk p = some .dir)
    (hfree : ∀ s, s ≠ [] → disk (p ++ s) = none)
    (hplain : ∀ e ∈ tree.entries, e.2 ≠ .dangling) (l r : List (RelPath × SeenEntry))
    (hentries : tree.entries = l ++ r) :
    ∃ disk', l.foldl (copyEntry p) (disk, false) = (disk', false) ∧
      CopiedEntries disk disk' p l := by
  induction l using List.reverseRecOn generalizing r with
  | nil =>
    exact ⟨disk, rfl, fun s hs => hfree s hs, fun s hs => absurd hs List.not_mem_nil,
      fun _ _ => rfl⟩
  | append_singleton l e ih =>
    rw [List.append_assoc, List.singleton_append] at hentries
    obtain ⟨disk', hfold, hcopied⟩ := ih _ hentries
    obtain ⟨hne, hparent, hnew⟩ := tree.rooted l e r hentries
    have hmem : e ∈ tree.entries := hentries ▸ List.mem_append_right _ List.mem_cons_self
    have hfree' : disk' (p ++ e.1) = none := by
      rw [hcopied.holds e.1 hne, findEntry, Option.bind_eq_none_iff]
      intro a ha
      have hkey : decide (a.1 = e.1) = true := List.find?_some
        (p := fun x : RelPath × SeenEntry => decide (x.1 = e.1)) ha
      exact absurd (List.mem_map.2 ⟨a, List.mem_of_find?_eq_some ha, of_decide_eq_true hkey⟩) hnew
    have hparent' : disk' (p ++ e.1).dropLast = some .dir := by
      rw [List.dropLast_append_of_ne_nil hne]
      rcases hparent with hnil | hdir
      · rw [hnil, List.append_nil, hcopied.others p, hp]
        intro s hs heq
        exact hs (List.self_eq_append_right.1 heq)
      · exact hcopied.dirs _ hdir
    rw [List.foldl_concat, hfold]
    cases hkind : e.2 with
    | file data =>
      refine ⟨disk'.put (p ++ e.1) (.file data), ?_, hcopied.put hne hnew (by rw [hkind]; rfl)⟩
      rw [copyEntry, hkind, copySeen, copy2_new hfree' hparent']
    | dir =>
      refine ⟨disk'.put (p ++ e.1) .dir, ?_, hcopied.put hne hnew (by rw [hkind]; rfl)⟩
      have hmade := osMakedirs_of_parent (List.append_ne_nil_of_right_ne_nil p hne) hfree' hparent'
      rw [copyEntry, hkind, copySeen, hmade]
    | dangling => exact absurd hkind (hplain e hmem)

/-- A copy that finds nothing in its way, and what else it leaves behind: the directories that lead
to it. -/
structure CopiedTo (disk disk' : FsDisk) (c : SourceCase) : Prop where
  holds : HoldsCopy disk' c
  others : ∀ q, ¬ c.path <+: q →
    disk' q = disk q ∨ disk q = none ∧ disk' q = some .dir ∧ q <+: c.path

theorem copyTestCase_ok (hroot : disk [] = some .dir) (hdirect : c.Direct)
    (hfree : ∀ s, disk (c.path ++ s) = none)
    (hlead : ∀ q, q <+: c.path → q ≠ c.path → disk q = none ∨ disk q = some .dir) :
    ∃ disk', copyTestCase disk c = .ok disk' ∧ CopiedTo disk disk' c := by
  have hnew : disk c.path = none := by
    have h := hfree []
    rwa [List.append_nil] at h
  cases hkind : c.contents with
  | file data =>
    rw [SourceCase.Direct, hkind] at hdirect
    obtain ⟨name, hname⟩ := List.length_eq_one_iff.1 hdirect
    have hparent : disk c.path.dropLast = some .dir := by
      rw [hname]
      exact hroot
    refine ⟨disk.put c.path (.file data), ?_, fun q => ?_, fun q hq => ?_⟩
    · rw [copyTestCase, hkind]
      exact copy2_new hnew hparent
    · rw [hkind, SourceContents.find]
      split
      · rename_i hnil
        rw [hnil, List.append_nil, FsDisk.put_self]
      · rename_i hne
        rw [FsDisk.put_of_ne (fun heq => hne (List.append_right_eq_self.1 heq)), hfree q]
    · exact .inl (FsDisk.put_of_ne fun heq => hq (heq ▸ List.prefix_refl _))
  | dir tree =>
    rw [SourceCase.Direct, hkind] at hdirect
    obtain ⟨hne, hplain⟩ := hdirect
    obtain ⟨disk₁, hok, hmade⟩ := osMakedirs_spec c.path.reverse hroot
      (by rw [List.reverse_reverse]; exact hnew) (by rw [List.reverse_reverse]; exact hlead)
    rw [List.reverse_reverse] at hmade
    have hfree₁ : ∀ s, s ≠ [] → disk₁ (c.path ++ s) = none := by
      intro s hs
      have hself : c.path ++ s ≠ c.path := fun heq => hs (List.append_right_eq_self.1 heq)
      rcases hmade.others _ hself with hsame | ⟨_, _, hpre⟩
      · exact hsame.trans (hfree s)
      · have hle := hpre.length_le
        rw [List.length_append] at hle
        exact absurd (List.length_eq_zero_iff.1 (by omega)) hs
    obtain ⟨disk₂, hfold, hcopied⟩ := foldl_copyEntry hmade.made hfree₁ hplain tree.entries []
      (List.append_nil _).symm
    have hwithin : ∀ q, ¬ c.path <+: q → disk₂ q = disk₁ q := fun q hq =>
      hcopied.others q fun s _ heq => hq (heq ▸ List.prefix_append _ _)
    refine ⟨disk₂, ?_, fun q => ?_, fun q hq => ?_⟩
    · rw [copyTestCase, hkind]
      show copytree disk tree c.path = _
      rw [copytree, hok]
      show (if (tree.entries.foldl (copyEntry c.path) (disk₁, false)).2 then _ else _) = _
      rw [hfold]
      rfl
    · rw [hkind, SourceContents.find]
      split
      · rename_i hnil
        rw [hnil, List.append_nil, hcopied.others, hmade.made]
        intro s hs heq
        exact hs (List.self_eq_append_right.1 heq)
      · rename_i hne
        exact hcopied.holds q hne
    · rw [hwithin q hq]
      exact hmade.others q fun heq => hq (heq ▸ List.prefix_refl _)

/-- The folder after some test cases have been copied: apart from them there are only the directories
that lead to them. -/
structure CopiedAll (disk : FsDisk) (l : List SourceCase) : Prop where
  root : disk [] = some .dir
  holds : ∀ c ∈ l, HoldsCopy disk c
  others : ∀ q, (∀ c ∈ l, ¬ c.path <+: q) →
    disk q = none ∨ disk q = some .dir ∧ (q = [] ∨ ∃ c ∈ l, q <+: c.path)

theorem copiedAll_empty : CopiedAll emptyFolder [] := by
  refine ⟨rfl, fun c hc => absurd hc List.not_mem_nil, fun q _ => ?_⟩
  rw [emptyFolder]
  split
  · rename_i hnil
    exact .inr ⟨rfl, .inl hnil⟩
  · exact .inl rfl

theorem SourceCase.Direct.path_ne_nil {c : SourceCase} (h : c.Direct) : c.path ≠ [] := by
  rw [SourceCase.Direct] at h
  cases hkind : c.contents with
  | file data =>
    rw [hkind] at h
    exact List.ne_nil_of_length_pos (by rw [h]; omega)
  | dir tree =>
    rw [hkind] at h
    exact h.1

theorem CopiedAll.copy {l : List SourceCase} (h : CopiedAll disk l) (hdirect : c.Direct)
    (hinside : ∀ d ∈ l, ¬ d.path <+: c.path ∧ ¬ c.path <+: d.path) :
    ∃ disk', copyTestCase disk c = .ok disk' ∧ CopiedAll disk' (l ++ [c]) := by
  have hne := hdirect.path_ne_nil
  have hbelow : ∀ d ∈ l, ∀ s, ¬ d.path <+: c.path ++ s := by
    intro d hd s hpre
    rcases List.prefix_or_prefix_of_prefix hpre (List.prefix_append _ _) with hdc | hcd
    · exact (hinside d hd).1 hdc
    · exact (hinside d hd).2 hcd
  have hfree : ∀ s, disk (c.path ++ s) = none := by
    intro s
    rcases h.others _ fun d hd => hbelow d hd s with hnone | ⟨_, hnil | ⟨d, hd, hpre⟩⟩
    · exact hnone
    · exact absurd (List.append_eq_nil_iff.1 hnil).1 hne
    · exact absurd ((List.prefix_append _ _).trans hpre) (hinside d hd).2
  have hlead : ∀ q, q <+: c.path → q ≠ c.path → disk q = none ∨ disk q = some .dir := by
    intro q hq _
    exact (h.others q fun d hd hpre => (hinside d hd).1 (hpre.trans hq)).imp_right And.left
  obtain ⟨disk', hok, hcopied⟩ := copyTestCase_ok h.root hdirect hfree hlead
  refine ⟨disk', hok, ?_, fun d hd => ?_, fun q hq => ?_⟩
  · rcases hcopied.others [] (fun hpre => hne (List.prefix_nil.1 hpre)) with hsame | ⟨_, hdir, _⟩
    · exact hsame.trans h.root
    · exact hdir
  · rcases List.mem_append.1 hd with hold | hlast
    · intro q
      have happart : ¬ c.path <+: d.path ++ q := by
        intro hpre
        rcases List.prefix_or_prefix_of_prefix hpre (List.prefix_append _ _) with hcd | hdc
        · exact (hinside d hold).2 hcd
        · exact (hinside d hold).1 hdc
      rcases hcopied.others _ happart with hsame | ⟨_, _, hpre⟩
      · rw [hsame, h.holds d hold q]
      · exact absurd ((List.prefix_append _ _).trans hpre) (hinside d hold).1
    · exact List.mem_singleton.1 hlast ▸ hcopied.holds
  · have hnot : ¬ c.path <+: q := hq c (List.mem_append_right _ List.mem_cons_self)
    have hold := h.others q fun d hd => hq d (List.mem_append_left _ hd)
    rcases hcopied.others q hnot with hsame | ⟨_, hdir, hpre⟩
    · rw [hsame]
      rcases hold with hnone | ⟨hdir, hnil | ⟨d, hd, hpre⟩⟩
      · exact .inl hnone
      · exact .inr ⟨hdir, .inl hnil⟩
      · exact .inr ⟨hdir, .inr ⟨d, List.mem_append_left _ hd, hpre⟩⟩
    · exact .inr ⟨hdir, .inr ⟨c, List.mem_append_right _ List.mem_cons_self, hpre⟩⟩

theorem copyTestCases_ok (current : RelPath) (shouldCopyCurrent : Bool)
    {l order : List SourceCase} (h : CopiedAll disk l) (hdirect : ∀ c ∈ order, c.Direct)
    (hinside : NoneInside (l ++ order)) :
    ∃ disk', copyTestCases current shouldCopyCurrent disk order = .ok disk' ∧
      CopiedAll disk' (l ++ order.filter (isCopied current shouldCopyCurrent)) := by
  induction order generalizing disk l with
  | nil =>
    refine ⟨disk, rfl, ?_⟩
    rw [List.filter_nil, List.append_nil]
    exact h
  | cons c order ih =>
    obtain ⟨hc, hrest⟩ := List.forall_mem_cons.1 hdirect
    rw [copyTestCases]
    split
    · rename_i hcopy
      have hpairs := List.pairwise_append.1 hinside
      obtain ⟨disk₁, hok, hcopied⟩ := h.copy hc fun d hd => hpairs.2.2 d hd c List.mem_cons_self
      obtain ⟨disk', hok', hall⟩ := ih hcopied hrest (by
        rw [List.append_assoc]
        exact hinside)
      refine ⟨disk', ?_, ?_⟩
      · rw [hok]
        exact hok'
      · rw [List.filter_cons_of_pos hcopy, List.append_cons]
        exact hall
    · rename_i hskip
      obtain ⟨disk', hok', hall⟩ := ih h hrest (hinside.sublist
        ((List.Sublist.refl l).append (List.sublist_cons_self c order)))
      refine ⟨disk', hok', ?_⟩
      rw [List.filter_cons_of_neg hskip]
      exact hall

theorem foldl_copyEntry_failed {l : List (RelPath × SeenEntry)} {acc : FsDisk × Bool}
    (h : acc.2 = true ∨ ∃ e ∈ l, e.2 = .dangling) : (l.foldl (copyEntry p) acc).2 = true := by
  induction l generalizing acc with
  | nil =>
    rcases h with hfailed | ⟨a, ha, _⟩
    · exact hfailed
    · exact absurd ha List.not_mem_nil
  | cons e l ih =>
    apply ih
    rcases h with hfailed | ⟨a, ha, hdangling⟩
    · left
      rw [copyEntry]
      split
      · exact hfailed
      · rfl
    · rcases List.mem_cons.1 ha with heq | hmem
      · left
        rw [copyEntry, ← heq, hdangling]
        rfl
      · exact .inr ⟨a, hmem, hdangling⟩

/-- A copy into an empty directory succeeds only for a direct test case: `copy2` makes no directory,
`copytree` must make the one it copies to, and dangling symlinks are errors. -/
theorem direct_of_copied (h : copyTestCase emptyFolder c = .ok disk) : c.Direct := by
  rw [SourceCase.Direct]
  cases hkind : c.contents with
  | file data =>
    have hne := c.file_ne_nil data hkind
    rw [copyTestCase, hkind] at h
    have hnone : emptyFolder c.path ≠ some .dir := by
      rw [emptyFolder, if_neg hne]
      exact (Option.some_ne_none _).symm
    have h : copy2 emptyFolder data c.path = .ok disk := h
    rw [copy2, if_neg hnone, if_neg hnone] at h
    split at h
    · rename_i hparent
      rw [emptyFolder] at hparent
      split at hparent
      · rename_i hnil
        have hlen := congrArg List.length hnil
        rw [List.length_dropLast, List.length_nil] at hlen
        have hpos := List.length_pos_iff.2 hne
        show c.path.length = 1
        omega
      · cases hparent
    · cases h
  | dir tree =>
    rw [copyTestCase, hkind] at h
    have h : copytree emptyFolder tree c.path = .ok disk := h
    rw [copytree] at h
    cases hmade : osMakedirs emptyFolder c.path.reverse with
    | error e =>
      rw [hmade] at h
      cases h
    | ok disk₁ =>
      rw [hmade] at h
      have h : (if (tree.entries.foldl (copyEntry c.path) (disk₁, false)).2 then _ else _) =
        Except.ok disk := h
      refine ⟨fun hnil => ?_, fun e he hdangling => ?_⟩
      · rw [hnil] at hmade
        cases hmade
      · rw [if_pos (foldl_copyEntry_failed (.inr ⟨e, he, hdangling⟩))] at h
        cases h

theorem holdsCopy_of_copied (h : copyTestCase emptyFolder c = .ok disk) : HoldsCopy disk c := by
  obtain ⟨disk', hok, hall⟩ := copiedAll_empty.copy (direct_of_copied h)
    fun d hd => absurd hd List.not_mem_nil
  cases h.symm.trans hok
  exact hall.holds c (List.mem_append_right _ List.mem_cons_self)

/-- Test cases, none inside another, can all be copied just when they are direct. -/
theorem allCopied_iff {cases : List SourceCase} (hinside : NoneInside cases) :
    AllCopied cases ↔ ∀ c ∈ cases, c.Direct := by
  constructor
  · intro h c hc
    obtain ⟨disk, hok, _⟩ := h.2 c hc
    exact direct_of_copied hok
  · intro h
    apply And.intro
    · intro order horder current shouldCopyCurrent
      have hinside' : NoneInside ([] ++ order) := hinside.perm horder.symm fun hcd => ⟨hcd.2, hcd.1⟩
      obtain ⟨disk, hok, hall⟩ := copyTestCases_ok current shouldCopyCurrent copiedAll_empty
        (fun c hc => h c (horder.mem_iff.1 hc)) hinside'
      refine ⟨disk, hok, fun c hc hcopied => hall.holds c ?_⟩
      exact List.mem_append_right _ (List.mem_filter.2 ⟨hc, hcopied⟩)
    · intro c hc
      obtain ⟨disk, hok, hall⟩ := copiedAll_empty.copy (h c hc) fun d hd => absurd hd List.not_mem_nil
      exact ⟨disk, hok, hall.holds c (List.mem_append_right _ List.mem_cons_self)⟩

/-- A file test case in a directory. -/
def nestedFile : SourceCase where
  path := ["sub".toList, "x.c".toList]
  contents := .file [0x78]
  inside := by decide
  file_ne_nil _ _ := List.cons_ne_nil _ _

theorem nestedFile_not_copied : ¬ ∀ cases, NoneInside cases → AllCopied cases := by
  intro h
  have hcopied := h [nestedFile] (List.pairwise_singleton _ _)
  obtain ⟨disk, hok, _⟩ := hcopied.2 nestedFile List.mem_cons_self
  cases hok

def directFile : SourceCase where
  path := ["x.c".toList]
  contents := .file [0x78]
  inside := by decide
  file_ne_nil _ _ := List.cons_ne_nil _ _

theorem nil_rooted (l : List (RelPath × SeenEntry)) (e : RelPath × SeenEntry)
    (r : List (RelPath × SeenEntry)) (h : [] = l ++ e :: r) : e.1 ≠ [] ∧
      (e.1.dropLast = [] ∨ (e.1.dropLast, SeenEntry.dir) ∈ l) ∧ e.1 ∉ l.map Prod.fst :=
  absurd h.symm (List.append_ne_nil_of_right_ne_nil l (List.cons_ne_nil e r))

def emptySeen : SeenTree := ⟨[], nil_rooted⟩

/-- A directory test case next to the nested file. -/
def nestedDir : SourceCase where
  path := ["sub".toList, "d".toList]
  contents := .dir emptySeen
  inside := by decide
  file_ne_nil _ h := by cases h

theorem allCopied_iff_three : AllCopied [directFile, nestedDir, nestedFile] ↔
    ∀ c ∈ [directFile, nestedDir, nestedFile], c.Direct := by
  apply allCopied_iff
  unfold NoneInside
  decide

end

end Cvise
