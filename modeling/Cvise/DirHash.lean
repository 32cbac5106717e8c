import Cvise.Cache
import Mathlib.Data.List.Sort

namespace Cvise
set_option autoImplicit true

/-- Blocks whose end can be told from their beginning: the texts of two lists of them are the same
only if the blocks say the same. -/
theorem map_eq_of_flatMap_eq {block : α → List β} {say : α → γ} {l l' : List α}
    (hne : ∀ a, block a ≠ [])
    (hread : ∀ a ∈ l, ∀ b ∈ l', ∀ r r', block a ++ r = block b ++ r' → say a = say b ∧ r = r')
    (h : l.flatMap block = l'.flatMap block) : l.map say = l'.map say := by
  induction l generalizing l' with
  | nil =>
    cases l' with
    | nil => rfl
    | cons b l' =>
      rw [List.flatMap_nil, List.flatMap_cons] at h
      exact absurd (List.append_eq_nil_iff.1 h.symm).1 (hne b)
  | cons a l ih =>
    cases l' with
    | nil =>
      rw [List.flatMap_nil, List.flatMap_cons] at h
      exact absurd (List.append_eq_nil_iff.1 h).1 (hne a)
    | cons b l' =>
      rw [List.flatMap_cons, List.flatMap_cons] at h
      obtain ⟨hsay, hrest⟩ := hread a List.mem_cons_self b List.mem_cons_self _ _ h
      rw [List.map_cons, List.map_cons, hsay, ih _ hrest]
      intro a' ha b' hb
      exact hread a' (List.mem_cons_of_mem _ ha) b' (List.mem_cons_of_mem _ hb)

theorem not_mem_of_mem_splitOn [BEq α] [LawfulBEq α] {x : α} {xs l : List α}
    (h : l ∈ xs.splitOn x) : x ∉ l := by
  induction xs generalizing l with
  | nil =>
    rw [List.splitOn_nil, List.mem_singleton] at h
    exact h ▸ List.not_mem_nil
  | cons a xs ih =>
    rw [List.splitOn_cons_eq_if_modifyHead] at h
    split at h
    · rcases List.mem_cons.1 h with hnil | h
      · exact hnil ▸ List.not_mem_nil
      · exact ih h
    · rename_i hne
      cases hsplit : xs.splitOn x with
      | nil => exact absurd hsplit (List.splitOn_ne_nil x xs)
      | cons hd tl =>
        rw [hsplit, List.modifyHead_cons] at h
        rcases List.mem_cons.1 h with hhead | h
        · rw [hhead]
          intro hmem
          rcases List.mem_cons.1 hmem with heq | hmem
          · exact hne (beq_iff_eq.2 heq.symm)
          · exact ih (hsplit ▸ List.mem_cons_self) hmem
        · exact ih (hsplit ▸ List.mem_cons_of_mem _ h)

/-- What a part of a path may be. -/
def IsPart (c : Str) : Prop := c ≠ [] ∧ c ≠ ['.'] ∧ '/' ∉ c

instance (c : Str) : Decidable (IsPart c) := inferInstanceAs (Decidable (_ ∧ _))

/-- The paths that `Path` gives. -/
def NormalPath (p : RelPath) : Prop :=
  ∃ root parts, p = root ++ parts ∧ root ∈ [[], [['/']], [['/', '/']]] ∧ ∀ c ∈ parts, IsPart c

theorem normalPath_pathOfStr (s : Str) : NormalPath (pathOfStr s) := by
  refine ⟨pathRoot s, _, rfl, ?_, ?_⟩
  · unfold pathRoot
    split
    · decide
    · decide
    · decide
    · decide
  · intro c hc
    obtain ⟨hmem, hkeep⟩ := List.mem_filter.1 hc
    obtain ⟨hne, hdot⟩ := of_decide_eq_true hkeep
    exact ⟨hne, hdot, not_mem_of_mem_splitOn hmem⟩

theorem filter_parts {parts : List Str} (h : ∀ c ∈ parts, IsPart c) :
    parts.filter (fun c => decide (c ≠ [] ∧ c ≠ ['.'])) = parts := by
  rw [List.filter_eq_self]
  intro c hc
  exact decide_eq_true ⟨(h c hc).1, (h c hc).2.1⟩

theorem filter_splitOn_intercalate {parts : List Str} (h : ∀ c ∈ parts, IsPart c) :
    ((List.intercalate ['/'] parts).splitOn '/').filter (fun c => decide (c ≠ [] ∧ c ≠ ['.'])) =
      parts := by
  cases parts with
  | nil => rfl
  | cons c parts =>
    rw [List.splitOn_intercalate _ (fun l hl => (h l hl).2.2) (List.cons_ne_nil _ _)]
    exact filter_parts h

theorem head_intercalate {parts : List Str} (h : ∀ c ∈ parts, IsPart c) :
    List.intercalate ['/'] parts = [] ∨
      ∃ c rest, List.intercalate ['/'] parts = c :: rest ∧ c ≠ '/' := by
  cases parts with
  | nil => exact .inl rfl
  | cons part parts =>
    obtain ⟨hne, _, hslash⟩ := h part List.mem_cons_self
    obtain ⟨c, rest, hpart⟩ := List.exists_cons_of_ne_nil hne
    subst hpart
    have hc : c ≠ '/' := fun heq => hslash (heq ▸ List.mem_cons_self)
    cases parts with
    | nil => exact .inr ⟨c, rest, List.append_nil _, hc⟩
    | cons _ _ => exact .inr ⟨c, _, rfl, hc⟩

theorem pathRoot_of_head {s : Str} (h : s = [] ∨ ∃ c rest, s = c :: rest ∧ c ≠ '/') :
    pathRoot s = [] ∧ pathRoot ('/' :: s) = [['/']] ∧ pathRoot ('/' :: '/' :: s) = [['/', '/']] := by
  rcases h with hnil | ⟨c, rest, hs, hc⟩
  · subst hnil
    exact ⟨rfl, rfl, rfl⟩
  · subst hs
    refine ⟨?_, ?_, ?_⟩
    · unfold pathRoot
      split
      · rename_i heq
        exact absurd (List.cons.inj heq).1 hc
      · rename_i heq
        exact absurd (List.cons.inj heq).1 hc
      · rename_i heq
        exact absurd (List.cons.inj heq).1 hc
      · rfl
    · unfold pathRoot
      split
      · rename_i heq
        exact absurd (List.cons.inj (List.cons.inj heq).2).1 hc
      · rename_i heq
        exact absurd (List.cons.inj (List.cons.inj heq).2).1 hc
      · rfl
      · rename_i hother
        exact absurd rfl (hother _)
    · unfold pathRoot
      split
      · rename_i heq
        exact absurd (List.cons.inj (List.cons.inj (List.cons.inj heq).2).2).1 hc
      · rfl
      · rename_i hother heq
        exact absurd (List.cons.inj heq).2.symm (hother _)
      · rename_i hother
        exact absurd rfl (hother _)

/-- `Path(str(path)) == path`. -/
theorem pathOfStr_strOfPath (h : NormalPath p) : pathOfStr (strOfPath p) = p := by
  obtain ⟨root, parts, hp, hroot, hparts⟩ := h
  subst hp
  obtain ⟨hrelative, hone, htwo⟩ := pathRoot_of_head (head_intercalate hparts)
  have hfilter := filter_splitOn_intercalate hparts
  rcases List.mem_cons.1 hroot with hnil | hroot
  · subst hnil
    rw [List.nil_append]
    cases parts with
    | nil => decide
    | cons part parts =>
      have hstr : strOfPath (part :: parts) = List.intercalate ['/'] (part :: parts) := by
        unfold strOfPath
        split
        · rename_i heq
          cases heq
        · rename_i heq
          cases heq
          exact absurd List.mem_cons_self (hparts _ List.mem_cons_self).2.2
        · rfl
      rw [hstr, pathOfStr, hrelative, hfilter, List.nil_append]
  · rcases List.mem_cons.1 hroot with hroot | hroot
    · subst hroot
      show pathOfStr ('/' :: List.intercalate ['/'] parts) = _
      rw [pathOfStr, hone, List.splitOn_cons_eq_if_modifyHead, if_pos (beq_self_eq_true _),
        List.filter_cons_of_neg (by decide), hfilter]
    · rw [List.mem_singleton.1 hroot]
      show pathOfStr ('/' :: '/' :: List.intercalate ['/'] parts) = _
      rw [pathOfStr, htwo, List.splitOn_cons_eq_if_modifyHead, if_pos (beq_self_eq_true _),
        List.splitOn_cons_eq_if_modifyHead, if_pos (beq_self_eq_true _),
        List.filter_cons_of_neg (by decide), List.filter_cons_of_neg (by decide), hfilter]

theorem strOfPath_inj (hp : NormalPath p) (hq : NormalPath q) (h : strOfPath p = strOfPath q) :
    p = q := by
  rw [← pathOfStr_strOfPath hp, h, pathOfStr_strOfPath hq]

theorem encode_inj (h : encode s = encode t) : s = t := by
  have hdecode := congrArg decode h
  rw [decode_encode, decode_encode, Option.some.injEq] at hdecode
  exact hdecode

/-- What the hash of a directory tells of an entry. For a symlink that is its text as `Path` writes
it, and what is found when it is followed. -/
inductive EntryIdentity where
  | file (data : Bytes)
  | dir
  | symlink (path : RelPath) (isDir isFile : Bool)
deriving DecidableEq

def Entry.identity (e : Entry) : EntryIdentity :=
  match e with
  | .file data => .file data
  | .dir => .dir
  | .symlink text _ => .symlink (pathOfStr text) e.isDir e.isFile

namespace DirTree

/-- All relative paths, each with its kind and contents. -/
def identity (t : DirTree) : List (RelPath × EntryIdentity) :=
  t.entries.map fun e => (e.1, e.2.identity)

/-- All names are those of a file system. -/
def Named (t : DirTree) : Prop := ∀ e ∈ t.entries, ∀ c ∈ e.1, IsPart c

end DirTree

/-- `_hash_dir_tree`, from the entries in the order in which `rglob` finds them. -/
def hashDirTree (sha256 : Bytes → Bytes) (found : List (RelPath × Entry)) : Bytes :=
  sha256 (dirTreeDigest sha256 (found.insertionSort fun a b => a.1 ≤ b.1))

instance : Std.Total fun a b : RelPath × Entry => a.1 ≤ b.1 := ⟨fun a b => le_total a.1 b.1⟩

instance : IsTrans (RelPath × Entry) fun a b => a.1 ≤ b.1 := ⟨fun _ _ _ hab hbc => le_trans hab hbc⟩

theorem DirTree.fst_inj {t : DirTree} (ha : a ∈ t.entries) (hb : b ∈ t.entries) (h : a.1 = b.1) :
    a = b := by
  have hnodup : (t.entries.map Prod.fst).Nodup := by
    rw [List.Nodup, List.pairwise_map]
    exact t.sorted.imp ne_of_lt
  exact List.inj_on_of_nodup_map hnodup ha hb h

theorem hashDirTree_eq {t : DirTree} (h : found.Perm t.entries) :
    hashDirTree sha256 found = hashTestCase sha256 (.dir t) := by
  have hperm := (List.perm_insertionSort (fun a b : RelPath × Entry => a.1 ≤ b.1) found).trans h
  have hsorted := List.pairwise_insertionSort (fun a b : RelPath × Entry => a.1 ≤ b.1) found
  have heq : found.insertionSort (fun a b => a.1 ≤ b.1) = t.entries := by
    apply List.Perm.eq_of_pairwise _ hsorted (t.sorted.imp le_of_lt) hperm
    intro a b ha hb hab hba
    exact t.fst_inj (hperm.mem_iff.1 ha) hb (le_antisymm hab hba)
  rw [hashDirTree, heq, hashTestCase]

/-- What `sha256` is applied to for an entry. -/
def hashedFor (e : RelPath × Entry) : List Bytes :=
  encode (strOfPath e.1) ::
    match e.2 with
    | .symlink text _ => [encode (strOfPath (pathOfStr text))]
    | .file data => [data]
    | .dir => []

/-- What `sha256` is applied to for a directory. -/
def hashedForDir (sha256 : Bytes → Bytes) (t : DirTree) : List Bytes :=
  dirTreeDigest sha256 t.entries :: t.entries.flatMap hashedFor

/-- The bytes that tell which kind of entry it is. -/
def Entry.flags (e : Entry) : Bytes :=
  [e.isDir, e.isFile, e.isSymlink].map fun b => if b then 1 else 0

def Entry.second (sha256 : Bytes → Bytes) : Entry → Bytes
  | .symlink text _ => sha256 (encode (strOfPath (pathOfStr text)))
  | .file data => sha256 data
  | .dir => []

/-- What the digest is taken of for an entry. -/
def entryBlock (sha256 : Bytes → Bytes) (e : RelPath × Entry) : Bytes :=
  sha256 (encode (strOfPath e.1)) ++ (e.2.flags ++ e.2.second sha256)

theorem dirTreeDigest_eq (sha256 : Bytes → Bytes) (entries : List (RelPath × Entry)) :
    dirTreeDigest sha256 entries = entries.flatMap (entryBlock sha256) := by
  rw [dirTreeDigest]
  congr 1
  funext e
  obtain ⟨p, e⟩ := e
  rw [entryBlock, ← List.append_assoc]
  cases e with
  | _ => rfl

theorem Entry.flags_inj {e e' : Entry} (h : e.flags = e'.flags) :
    e.isDir = e'.isDir ∧ e.isFile = e'.isFile ∧ e.isSymlink = e'.isSymlink := by
  have hflag : ∀ b b' : Bool, (if b then 1 else 0 : UInt8) = (if b' then 1 else 0) → b = b' := by
    decide
  obtain ⟨hdir, h⟩ := List.cons.inj h
  obtain ⟨hfile, h⟩ := List.cons.inj h
  exact ⟨hflag _ _ hdir, hflag _ _ hfile, hflag _ _ (List.cons.inj h).1⟩

section
variable {sha256 : Bytes → Bytes}

/-- The flags tell whether a second hash follows, so it is known where the next entry begins. -/
theorem entryBlock_read (hlen : ∀ x, (sha256 x).length = 32) {e e' : RelPath × Entry}
    (hname : NormalPath e.1) (hname' : NormalPath e'.1)
    (hinj : ∀ x ∈ hashedFor e, ∀ y ∈ hashedFor e', sha256 x = sha256 y → x = y)
    (h : entryBlock sha256 e ++ r = entryBlock sha256 e' ++ r') :
    (e.1, e.2.identity) = (e'.1, e'.2.identity) ∧ r = r' := by
  obtain ⟨p, e⟩ := e
  obtain ⟨p', e'⟩ := e'
  simp only [entryBlock, List.append_assoc] at h
  obtain ⟨hpath, h⟩ := List.append_inj h ((hlen _).trans (hlen _).symm)
  have hp : p = p' := by
    apply strOfPath_inj hname hname'
    exact encode_inj (hinj _ List.mem_cons_self _ List.mem_cons_self hpath)
  obtain ⟨hflags, h⟩ := List.append_inj h rfl
  obtain ⟨hdir, hfile, hlink⟩ := Entry.flags_inj hflags
  have hsecond : ∀ x ∈ hashedFor (p, e), ∀ y ∈ hashedFor (p', e'),
      sha256 x ++ r = sha256 y ++ r' → x = y ∧ r = r' := by
    intro x hx y hy hxy
    obtain ⟨heq, hr⟩ := List.append_inj hxy ((hlen _).trans (hlen _).symm)
    exact ⟨hinj x hx y hy heq, hr⟩
  have hlast : ∀ {a b : Bytes}, b ∈ [a, b] := List.mem_cons_of_mem _ List.mem_cons_self
  cases e with
  | file data =>
    cases e' with
    | file data' =>
      obtain ⟨hdata, hr⟩ := hsecond _ hlast _ hlast h
      exact ⟨by rw [hp, hdata], hr⟩
    | dir => cases hfile
    | symlink => cases hlink
  | dir =>
    cases e' with
    | file => cases hfile
    | dir => exact ⟨by rw [hp], h⟩
    | symlink => cases hlink
  | symlink text dest =>
    cases e' with
    | file => cases hlink
    | dir => cases hlink
    | symlink text' dest' =>
      obtain ⟨htext, hr⟩ := hsecond _ hlast _ hlast h
      have hsame := strOfPath_inj (normalPath_pathOfStr text) (normalPath_pathOfStr text')
        (encode_inj htext)
      refine ⟨?_, hr⟩
      show (p, EntryIdentity.symlink _ _ _) = (p', EntryIdentity.symlink _ _ _)
      rw [hp, hsame, hdir, hfile]

theorem entryBlock_congr {e e' : RelPath × Entry}
    (h : (e.1, e.2.identity) = (e'.1, e'.2.identity)) :
    entryBlock sha256 e = entryBlock sha256 e' := by
  obtain ⟨p, e⟩ := e
  obtain ⟨p', e'⟩ := e'
  obtain ⟨hp, hid⟩ := Prod.mk.inj h
  have hp : p = p' := hp
  subst hp
  cases e with
  | file =>
    cases e' with
    | file => cases hid; rfl
    | _ => cases hid
  | dir =>
    cases e' with
    | dir => rfl
    | _ => cases hid
  | symlink text dest =>
    cases e' with
    | symlink text' dest' =>
      obtain ⟨htext, hdir, hfile⟩ := EntryIdentity.symlink.inj hid
      rw [entryBlock, entryBlock, Entry.flags, Entry.flags]
      show _ ++ ([_, _, true].map _ ++ Entry.second _ _) = _ ++ ([_, _, true].map _ ++ _)
      rw [Entry.second, Entry.second, htext, hdir, hfile]
    | _ => cases hid

/-- Without a collision among what is hashed, two directories have the same hash just when they have
the same paths, kinds, contents and targets of links, in whatever order they are listed. -/
theorem hashDirTree_identifies (hlen : ∀ x, (sha256 x).length = 32) {t t' : DirTree}
    (hnamed : t.Named) (hnamed' : t'.Named)
    (hinj : ∀ x ∈ hashedForDir sha256 t, ∀ y ∈ hashedForDir sha256 t',
      sha256 x = sha256 y → x = y) :
    ∀ found found', found.Perm t.entries → found'.Perm t'.entries →
      (hashDirTree sha256 found = hashDirTree sha256 found' ↔ t.identity = t'.identity) := by
  intro found found' hfound hfound'
  have hnormal : ∀ {u : DirTree}, u.Named → ∀ e ∈ u.entries, NormalPath e.1 := fun hu e he =>
    ⟨[], e.1, rfl, List.mem_cons_self, hu e he⟩
  have hmem : ∀ {u : DirTree} {e}, e ∈ u.entries → ∀ x ∈ hashedFor e, x ∈ hashedForDir sha256 u :=
    fun he x hx => List.mem_cons_of_mem _ (List.mem_flatMap.2 ⟨_, he, hx⟩)
  rw [hashDirTree_eq hfound, hashDirTree_eq hfound', hashTestCase, hashTestCase]
  constructor
  · intro h
    have hdigest := hinj _ List.mem_cons_self _ List.mem_cons_self h
    rw [dirTreeDigest_eq, dirTreeDigest_eq] at hdigest
    refine map_eq_of_flatMap_eq (fun e => ?_) (fun e he e' he' r r' hr => ?_) hdigest
    · exact List.ne_nil_of_length_pos (by rw [entryBlock, List.length_append, hlen]; omega)
    · apply entryBlock_read hlen (hnormal hnamed e he) (hnormal hnamed' e' he') _ hr
      exact fun x hx y hy => hinj x (hmem he x hx) y (hmem he' y hy)
  · intro h
    have hblocks : ∀ {l l' : List (RelPath × Entry)},
        l.map (fun e => (e.1, e.2.identity)) = l'.map (fun e => (e.1, e.2.identity)) →
          l.map (entryBlock sha256) = l'.map (entryBlock sha256) := by
      intro l l' hl
      induction l generalizing l' with
      | nil =>
        cases l' with
        | nil => rfl
        | cons => cases hl
      | cons e l ih =>
        cases l' with
        | nil => cases hl
        | cons e' l' =>
          obtain ⟨hhead, htail⟩ := List.cons.inj hl
          rw [List.map_cons, List.map_cons, entryBlock_congr hhead, ih htail]
    rw [dirTreeDigest_eq, dirTreeDigest_eq, List.flatMap_def, List.flatMap_def, hblocks h]

end

/-- The values of SHA-256 that are needed below; the last one is that of the digests. -/
def someSha256 (x : Bytes) : Bytes :=
  if x = [100] then
    [24, 172, 62, 115, 67, 240, 22, 137, 12, 81, 14, 147, 249, 53, 38, 17, 105, 217, 227,
      245, 101, 67, 100, 41, 131, 15, 175, 9, 52, 244, 248, 228]
  else if x = [100, 47, 102] then
    [221, 49, 40, 86, 141, 38, 245, 69, 26, 135, 168, 89, 95, 204, 55, 38, 168, 112, 210,
      231, 5, 132, 61, 140, 173, 222, 167, 214, 49, 245, 207, 32]
  else if x = [120] then
    [45, 113, 22, 66, 183, 38, 176, 68, 1, 98, 124, 169, 251, 172, 50, 245, 200, 83, 15,
      177, 144, 60, 196, 219, 2, 37, 135, 23, 146, 26, 72, 129]
  else if x = [108] then
    [172, 172, 134, 192, 230, 9, 202, 144, 111, 99, 43, 14, 45, 172, 204, 178, 183, 125, 34,
      176, 98, 31, 32, 235, 236, 225, 164, 131, 91, 147, 246, 240]
  else
    [181, 242, 54, 102, 96, 68, 246, 115, 46, 132, 21, 204, 11, 54, 115, 47, 191, 238, 81,
      47, 106, 21, 112, 187, 160, 235, 10, 106, 49, 85, 64, 175]

theorem length_someSha256 (x : Bytes) : (someSha256 x).length = 32 := by
  unfold someSha256
  split
  · rfl
  · split
    · rfl
    · split
      · rfl
      · split
        · rfl
        · rfl

/-- A directory with a file, and a link to the file. -/
def linkedTree : DirTree where
  entries := [(["d".toList], .dir), (["d".toList, "f".toList], .file [0x78]),
    (["l".toList], .symlink "d//f".toList (.file [["d".toList], ["d".toList, "f".toList]] [0x78]))]
  sorted := by decide
  rooted := by decide

def relinkedTree : DirTree where
  entries := [(["d".toList], .dir), (["d".toList, "f".toList], .file [0x78]),
    (["l".toList], .symlink "./d/f".toList (.file [["d".toList], ["d".toList, "f".toList]] [0x78]))]
  sorted := by decide
  rooted := by decide

theorem hashDirTree_identifies_links :
    hashDirTree someSha256 linkedTree.entries.reverse =
        hashDirTree someSha256 relinkedTree.entries ↔
      linkedTree.identity = relinkedTree.identity := by
  have hnamed : linkedTree.Named ∧ relinkedTree.Named := by
    unfold DirTree.Named
    decide
  exact hashDirTree_identifies length_someSha256 hnamed.1 hnamed.2 (by decide +kernel) _ _
    (List.reverse_perm _) (List.Perm.refl _)

end Cvise
