import Cvise.TestEnvironment

namespace Cvise
set_option autoImplicit true

variable {T L : Type} {expected : List RelPath}

/-- With each path there is the directory that holds it. -/
def ClosedUnderParents (paths : List RelPath) : Prop :=
  ∀ p ∈ paths, p.dropLast = [] ∨ p.dropLast ∈ paths

instance (paths : List RelPath) : Decidable (ClosedUnderParents paths) :=
  inferInstanceAs (Decidable (∀ p ∈ paths, _))

def unexpectedPaths (expected : List RelPath) (es : List (RelPath × Entry)) : List RelPath :=
  (es.filter (·.1 ∉ expected)).map Prod.fst

/-- An unexpected symlink that leads to a directory even without the unexpected paths behind it,
which the clean-up comes to first. It is not removed by `rmdir`. -/
def ExtraneousLink (expected : List RelPath) (es : List (RelPath × Entry)) (s : RelPath × Entry) :
    Prop :=
  s.1 ∉ expected ∧ s.2.isSymlink ∧
    (s.2.without (unexpectedPaths expected (es.filter (s.1 < ·.1)))).isDir

instance (expected : List RelPath) (es : List (RelPath × Entry)) (s : RelPath × Entry) :
    Decidable (ExtraneousLink expected es s) := inferInstanceAs (Decidable (_ ∧ _))

/-- The entry is expected, or the clean-up stops before it. -/
def Survives (expected : List RelPath) (es : List (RelPath × Entry)) (x : RelPath × Entry) : Prop :=
  x.1 ∈ expected ∨ ∃ s ∈ es, ExtraneousLink expected es s ∧ (x = s ∨ x.1 < s.1)

instance (expected : List RelPath) (es : List (RelPath × Entry)) (x : RelPath × Entry) :
    Decidable (Survives expected es x) := inferInstanceAs (Decidable (_ ∨ _))

/-- The entries, with symlinks broken that lead through a path that is gone. -/
def withoutPaths (gone : List RelPath) (es : List (RelPath × Entry)) : List (RelPath × Entry) :=
  es.map fun x => (x.1, x.2.without gone)

namespace Entry

@[simp] theorem isSymlink_without (gone : List RelPath) (e : Entry) :
    (e.without gone).isSymlink = e.isSymlink := by
  cases e with
  | _ => rfl

theorem without_without (e : Entry) (gone : List RelPath) (p : RelPath) :
    (e.without gone).without [p] = e.without (p :: gone) := by
  cases e with
  | file data => rfl
  | dir => rfl
  | symlink text dest =>
    cases dest with
    | broken => rfl
    | file via data =>
      by_cases h : ∃ q ∈ gone, q ∈ via
      · simp [without, LinkDest.without, h]
      · simp [without, LinkDest.without, h]
    | dir via =>
      by_cases h : ∃ q ∈ gone, q ∈ via
      · simp [without, LinkDest.without, h]
      · simp [without, LinkDest.without, h]

theorem without_nil (e : Entry) : e.without [] = e := by
  cases e with
  | symlink text dest =>
    cases dest with
    | _ => simp [without, LinkDest.without]
  | _ => rfl

end Entry

namespace DirTree

/-- What the loop does with a path that is neither expected nor a symlink to a directory: the entry
goes, and nothing else. -/
theorem remove_ok {t : DirTree} (he : (p, e) ∈ t.entries) (hlink : ¬ (e.isDir ∧ e.isSymlink))
    (hchild : ∀ x ∈ t.entries, x.1.dropLast ≠ p) :
    ∃ t', t.remove p = .ok t' ∧
      t'.entries = withoutPaths [p] (t.entries.filter (·.1 ≠ p)) := by
  rw [remove, lookupEntry_some.2 he]
  simp only [if_neg hlink, dif_pos hchild]
  exact ⟨_, rfl, rfl⟩

end DirTree

variable {es rest : List (RelPath × Entry)} {e x : RelPath × Entry}

/-- Behind the last of the symlinks that the clean-up stops at, what survives is expected. -/
theorem survives_iff (hnone : ∀ s ∈ rest, ¬ ExtraneousLink expected es s)
    (hsub : ∀ s ∈ es, s ∉ rest → ¬ (x = s ∨ x.1 < s.1)) :
    Survives expected es x ↔ x.1 ∈ expected := by
  constructor
  · rintro (hmem | ⟨s, hs, hlink, hle⟩)
    · exact hmem
    · by_cases hrest : s ∈ rest
      · exact absurd hlink (hnone s hrest)
      · exact absurd hle (hsub s hs hrest)
  · exact .inl

section split
variable (hsorted : (es.reverse ++ e :: rest).Pairwise fun a b => a.1 < b.1)
include hsorted

theorem lt_of_mem_rest (hx : x ∈ rest) : e.1 < x.1 :=
  (List.pairwise_cons.1 (List.pairwise_append.1 hsorted).2.1).1 x hx

theorem lt_of_mem_es (hx : x ∈ es) : x.1 < e.1 :=
  (List.pairwise_append.1 hsorted).2.2 x (List.mem_reverse.2 hx) e List.mem_cons_self

theorem filter_lt_eq : (es.reverse ++ e :: rest).filter (fun x => e.1 < x.1) = rest := by
  rw [List.filter_append, List.filter_cons_of_neg (by simp), List.filter_eq_nil_iff.2 fun x hx => ?_,
    List.nil_append]
  · exact List.filter_eq_self.2 fun x hx => decide_eq_true (lt_of_mem_rest hsorted hx)
  · have hlt := lt_of_mem_es hsorted (List.mem_reverse.1 hx)
    simpa using hlt.le

theorem filter_ne_eq (expected : List RelPath) :
    ((e :: es).reverse ++ rest.filter (·.1 ∈ expected)).filter (·.1 ≠ e.1) =
      es.reverse ++ rest.filter (·.1 ∈ expected) := by
  rw [List.reverse_cons, List.append_assoc, List.singleton_append, List.filter_append,
    List.filter_cons_of_neg (by simp)]
  congr 1
  · exact List.filter_eq_self.2 fun x hx =>
      decide_eq_true (lt_of_mem_es hsorted (List.mem_reverse.1 hx)).ne
  · exact List.filter_eq_self.2 fun x hx =>
      decide_eq_true (lt_of_mem_rest hsorted (List.mem_filter.1 hx).1).ne'

/-- All that the loop comes to behind a symlink that it stops at stays. -/
theorem survives_of_link (hlink : ExtraneousLink expected (es.reverse ++ e :: rest) e)
    (hx : x ∈ (e :: es).reverse) : Survives expected (es.reverse ++ e :: rest) x := by
  refine .inr ⟨e, by simp, hlink, ?_⟩
  rcases List.mem_cons.1 (List.mem_reverse.1 hx) with rfl | hx
  · exact .inl rfl
  · exact .inr (lt_of_mem_es hsorted hx)

theorem survives_behind (hnone : ∀ s ∈ rest, ¬ ExtraneousLink expected (es.reverse ++ e :: rest) s)
    (hx : x ∈ rest) : Survives expected (es.reverse ++ e :: rest) x ↔ x.1 ∈ expected := by
  refine survives_iff hnone fun s hs hne => ?_
  have hle : s.1 ≤ e.1 := by
    rcases List.mem_append.1 hs with hs | hs
    · exact (lt_of_mem_es hsorted (List.mem_reverse.1 hs)).le
    · exact ((List.mem_cons.1 hs).resolve_right hne) ▸ le_rfl
  have hlt := hle.trans_lt (lt_of_mem_rest hsorted hx)
  rintro (rfl | hlt')
  · exact absurd hlt (lt_irrefl _)
  · exact absurd (hlt.trans hlt') (lt_irrefl _)

/-- Nothing is left in a directory when the loop comes to it, for what was in it was not expected. -/
theorem no_child (hclosed : ClosedUnderParents expected) (he : e.1 ∉ expected) {t : DirTree}
    (ht : t.entries = withoutPaths gone ((e :: es).reverse ++ rest.filter (·.1 ∈ expected)))
    (hy : y ∈ t.entries) : y.1.dropLast ≠ e.1 := by
  intro hparent
  have hlt : e.1 < y.1 := hparent ▸ dropLast_lt (t.rooted y hy).1
  have hroot : e.1 ≠ [] := by
    have hmem : (e.1, e.2.without gone) ∈ t.entries := by
      rw [ht]
      exact List.mem_map.2 ⟨e, by simp, rfl⟩
    exact (t.rooted _ hmem).1
  rw [ht] at hy
  obtain ⟨x, hx, rfl⟩ := List.mem_map.1 hy
  rcases List.mem_append.1 hx with hx | hx
  · rcases List.mem_cons.1 (List.mem_reverse.1 hx) with rfl | hx
    · exact absurd hlt (lt_irrefl _)
    · exact absurd (hlt.trans (lt_of_mem_es (x := x) hsorted hx)) (lt_irrefl _)
  · rcases hclosed x.1 (of_decide_eq_true (List.mem_filter.1 hx).2) with hempty | hin
    · exact hroot (hparent ▸ hempty)
    · exact he (hparent ▸ hin)

end split

theorem withoutPaths_withoutPaths (gone : List RelPath) (p : RelPath)
    (es : List (RelPath × Entry)) :
    withoutPaths [p] (withoutPaths gone es) = withoutPaths (p :: gone) es := by
  rw [withoutPaths, withoutPaths, withoutPaths, List.map_map]
  exact List.map_congr_left fun x _ => congrArg (Prod.mk x.1) (x.2.without_without gone p)

/-- A filter of two parts, of which the first one is kept. -/
theorem filter_split {α : Type} {all a b : List α} {P Q : α → Prop} [DecidablePred P]
    [DecidablePred Q] (h : all = a ++ b) (ha : ∀ x ∈ a, P x) (hb : ∀ x ∈ b, (P x ↔ Q x)) :
    all.filter (P ·) = a ++ b.filter (Q ·) ∧ all.filter (¬ P ·) = b.filter (¬ Q ·) := by
  subst h
  rw [List.filter_append, List.filter_append]
  constructor
  · rw [List.filter_eq_self.2 fun x hx => decide_eq_true (ha x hx)]
    congr 1
    exact List.filter_congr fun x hx => decide_eq_decide.2 (hb x hx)
  · rw [List.filter_eq_nil_iff.2 fun x hx => by simpa using ha x hx, List.nil_append]
    exact List.filter_congr fun x hx => decide_eq_decide.2 (not_congr (hb x hx))

namespace DirTree

/-- What the loop leaves of the entries `all` when it has the paths of `es` before it, the greatest
first, and has come through those of `rest`. -/
theorem removeExtraneous_entries (hclosed : ClosedUnderParents expected) (all : List (RelPath × Entry))
    (hsorted : all.Pairwise fun a b => a.1 < b.1) (t : DirTree) (es rest : List (RelPath × Entry))
    (hall : all = es.reverse ++ rest)
    (hnone : ∀ s ∈ rest, ¬ ExtraneousLink expected all s)
    (ht : t.entries = withoutPaths (unexpectedPaths expected rest)
      (es.reverse ++ rest.filter (·.1 ∈ expected))) :
    (t.removeExtraneous expected (es.map Prod.fst)).1.entries =
      withoutPaths ((all.filter (¬ Survives expected all ·)).map Prod.fst)
        (all.filter (Survives expected all ·)) := by
  induction es generalizing t rest with
  | nil =>
    obtain rfl : all = rest := hall
    obtain ⟨hkept, hgone⟩ := filter_split (Q := fun x => x.1 ∈ expected) (List.nil_append all).symm
      (List.forall_mem_nil _) fun x _ => survives_iff hnone fun s hs hne => absurd hs hne
    rw [hkept, hgone]
    exact ht
  | cons e es ih =>
    rw [List.reverse_cons, List.append_assoc, List.singleton_append] at hall
    subst hall
    rw [List.map_cons, removeExtraneous]
    split
    · rename_i he
      apply ih t (e :: rest) rfl
      · exact List.forall_mem_cons.2 ⟨fun hlink => hlink.1 he, hnone⟩
      · rw [ht, unexpectedPaths, unexpectedPaths, List.filter_cons_of_neg (by simpa using he),
          List.filter_cons_of_pos (by simpa using he), List.reverse_cons, List.append_assoc,
          List.singleton_append]
    · rename_i he
      have hgone : unexpectedPaths expected ((es.reverse ++ e :: rest).filter (e.1 < ·.1)) =
          unexpectedPaths expected rest := by
        rw [filter_lt_eq hsorted]
      have hmem : (e.1, e.2.without (unexpectedPaths expected rest)) ∈ t.entries := by
        rw [ht]
        exact List.mem_map.2 ⟨e, by simp, rfl⟩
      by_cases hlink : ExtraneousLink expected (es.reverse ++ e :: rest) e
      · have hstop : t.remove e.1 = .error .osError := by
          have hdir := hlink.2
          rw [hgone, ← Entry.isSymlink_without (unexpectedPaths expected rest)] at hdir
          rw [remove, lookupEntry_some.2 hmem]
          exact if_pos hdir.symm
        have hsplit : es.reverse ++ e :: rest = (e :: es).reverse ++ rest := by
          rw [List.reverse_cons, List.append_assoc, List.singleton_append]
        obtain ⟨hkept, hremoved⟩ := filter_split hsplit
          (fun x hx => survives_of_link hsorted hlink hx)
          fun x hx => survives_behind hsorted hnone hx
        rw [hstop, hkept, hremoved]
        exact ht
      · have hlink' : ¬ ((e.2.without (unexpectedPaths expected rest)).isDir ∧
            (e.2.without (unexpectedPaths expected rest)).isSymlink) := by
          rintro ⟨hdir, hsym⟩
          rw [Entry.isSymlink_without] at hsym
          exact hlink ⟨he, hsym, hgone ▸ hdir⟩
        obtain ⟨t', hremove, hentries⟩ := remove_ok hmem hlink' fun y hy =>
          no_child hsorted hclosed he ht hy
        rw [hremove]
        apply ih t' (e :: rest) rfl
        · exact List.forall_mem_cons.2 ⟨hlink, hnone⟩
        · have hgone' : unexpectedPaths expected (e :: rest) =
              e.1 :: unexpectedPaths expected rest := by
            rw [unexpectedPaths, List.filter_cons_of_pos (by simpa using he)]
            rfl
          rw [hentries, ht, withoutPaths, withoutPaths, List.filter_map, hgone',
            List.filter_cons_of_neg (by simpa using he), ← filter_ne_eq hsorted]
          exact withoutPaths_withoutPaths _ _ _

end DirTree

/-- The clean-up of a directory keeps the entries that survive. -/
theorem removeExtraneousFiles_entries (hclosed : ClosedUnderParents expected) (t : DirTree) :
    ∃ t', ((TestCase.dir t).removeExtraneousFiles expected).1 = .dir t' ∧
      t'.entries = withoutPaths ((t.entries.filter (¬ Survives expected t.entries ·)).map Prod.fst)
        (t.entries.filter (Survives expected t.entries ·)) := by
  have hstart : t.entries = withoutPaths (unexpectedPaths expected [])
      (t.entries.reverse.reverse ++ [].filter (·.1 ∈ expected)) := by
    rw [List.reverse_reverse, List.filter_nil, List.append_nil]
    exact (List.map_id'' (fun x => by rw [unexpectedPaths]; exact Prod.ext rfl x.2.without_nil) _).symm
  have h := DirTree.removeExtraneous_entries hclosed t.entries t.sorted t t.entries.reverse []
    (by simp) (List.forall_mem_nil _) hstart
  rw [List.map_reverse] at h
  exact ⟨_, rfl, h⟩

section
variable [DecidableEq T] {env : TestEnv T L} {test : Folder T → Int × Folder T}

/-- The end of a job whose test succeeds and leaves something at its path. -/
theorem TestEnv.runTest_left (hcode : (test env.folder).1 = 0)
    (hleft : (test env.folder).2 env.testCase = some left) (original : TestCase) :
    env.runTest test original = { env with
      exitcode := some 0
      folder := (test env.folder).2.put env.testCase
        (some (left.removeExtraneousFiles env.writtenPaths).1)
      originalSize := some original.getFileSize
      newSize := some left.getFileSize } := by
  simp only [runTest, hcode, if_true, TestEnv.variant, hleft]

theorem TestEnv.runTest_success (hresult : env.result = some .ok) (hcode : (test env.folder).1 = 0)
    (hleft : (test env.folder).2 env.testCase = some left) (original : TestCase) :
    (env.runTest test original).success ∧ (env.runTest test original).variant =
      some (left.removeExtraneousFiles env.writtenPaths).1 := by
  rw [runTest_left hcode hleft]
  exact ⟨by simp [TestEnv.success, hresult], Folder.put_self _ _ _⟩

/-- A directory that the test has left is cleaned up to the paths that were written, exactly if each
other symlink to a directory in it leads through one of the other paths behind it. -/
theorem extraneous_removed_iff (env : TestEnv T L) (test : Folder T → Int × Folder T)
    (original : TestCase) (left : DirTree) (hresult : env.result = some .ok)
    (hcode : (test env.folder).1 = 0)
    (hleft : (test env.folder).2 env.testCase = some (.dir left))
    (hclosed : ClosedUnderParents env.writtenPaths)
    (hwritten : ∀ p ∈ env.writtenPaths, ∃ e ∈ left.entries, e.1 = p) :
    (env.runTest test original).success ∧ ∃ committed,
      (env.runTest test original).variant = some (.dir committed) ∧
      ((∀ p, (∃ e ∈ committed.entries, e.1 = p) ↔ p ∈ env.writtenPaths) ↔
        ∀ e ∈ left.entries, ¬ ExtraneousLink env.writtenPaths left.entries e) := by
  obtain ⟨hsuccess, hvariant⟩ := TestEnv.runTest_success hresult hcode hleft original
  obtain ⟨committed, hcommitted, hentries⟩ := removeExtraneousFiles_entries hclosed left
  rw [hcommitted] at hvariant
  refine ⟨hsuccess, committed, hvariant, ?_⟩
  have hpath (p : RelPath) : (∃ e ∈ committed.entries, e.1 = p) ↔
      ∃ e ∈ left.entries, Survives env.writtenPaths left.entries e ∧ e.1 = p := by
    simp only [hentries, withoutPaths, List.mem_map, List.mem_filter, decide_eq_true_eq]
    constructor
    · rintro ⟨_, ⟨e, ⟨he, hsurvives⟩, rfl⟩, rfl⟩
      exact ⟨e, he, hsurvives, rfl⟩
    · rintro ⟨e, he, hsurvives, rfl⟩
      exact ⟨_, ⟨e, ⟨he, hsurvives⟩, rfl⟩, rfl⟩
  simp only [hpath]
  constructor
  · intro hpaths e he hlink
    exact hlink.1 ((hpaths e.1).1 ⟨e, he, .inr ⟨e, he, hlink, .inl rfl⟩, rfl⟩)
  · intro hnone p
    constructor
    · rintro ⟨e, _, hmem | ⟨s, hs, hlink, _⟩, rfl⟩
      · exact hmem
      · exact absurd hlink (hnone s hs)
    · intro hp
      obtain ⟨e, he, heq⟩ := hwritten p hp
      exact ⟨e, he, .inl (heq ▸ hp), heq⟩

end

/-- A directory with one file and what the test adds to it. -/
def dirWith (entry : Entry) : DirTree where
  entries := [(["a".toList], .file [1]), (["b".toList], entry)]
  sorted := by
    refine List.pairwise_cons.2 ⟨fun b hb => ?_, List.pairwise_singleton _ _⟩
    rw [List.mem_singleton.1 hb]
    exact show ["a".toList] < ["b".toList] by decide
  rooted := by simp

def testLeaves (tree : DirTree) (_ : Folder Unit) : Int × Folder Unit := (0, fun _ => some (.dir tree))

/-- A transform has written one file. -/
def wroteOneFile : TestEnv Unit Nat where
  state := none
  testCase := ()
  shouldCopyCurrentTestCase := false
  pass := none
  result := some .ok
  writtenPaths := [["a".toList]]

def linkLeft : TestEnv Unit Nat :=
  wroteOneFile.runTest (testLeaves (dirWith (.symlink "/c".toList (.dir [])))) (.file [])

/-- The test adds a symlink to a directory, and it is not removed. -/
theorem link_not_removed : linkLeft.success ∧ ∃ committed, linkLeft.variant = some (.dir committed) ∧
    (∃ e ∈ committed.entries, e.1 = ["b".toList]) ∧ ["b".toList] ∉ wroteOneFile.writtenPaths :=
  ⟨by decide, dirWith (.symlink "/c".toList (.dir [])), by decide, by decide, by decide⟩

/-- A directory with one file, a symlink to a directory, and that directory. -/
def dirWithLink : DirTree where
  entries := [(["a".toList], .file [1]), (["b".toList], .symlink "d".toList (.dir [["d".toList]])),
    (["d".toList], .dir)]
  sorted := by decide
  rooted := by decide

/-- A symlink that the test adds is removed after its directory. -/
theorem brokenLink_removed : ∃ committed,
    (wroteOneFile.runTest (testLeaves dirWithLink) (.file [])).variant =
      some (.dir committed) ∧ ∀ p, (∃ e ∈ committed.entries, e.1 = p) ↔ p = ["a".toList] := by
  obtain ⟨_, committed, hvariant, hiff⟩ := extraneous_removed_iff wroteOneFile
    (testLeaves dirWithLink) (.file []) dirWithLink rfl rfl rfl (by decide) (by decide)
  have hpaths := hiff.2 (by decide)
  exact ⟨committed, hvariant, fun p => (hpaths p).trans List.mem_singleton⟩

end Cvise
