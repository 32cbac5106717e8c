import Cvise.MergePatches

namespace Cvise
set_option autoImplicit true

variable {bundles : List HintBundle} {refs : List PatchRef} {r : PatchRef} {paths : PathToPatches}
  {testCase : TestCase}

namespace PatchRef

/-- The operation of the patch, as a word. -/
def op (bundles : List HintBundle) (r : PatchRef) : Option Bytes :=
  r.patch.operation.bind fun o => (bundleAt bundles r).vocabulary[o]?

/-- The path of the file whose contents the patch inserts. -/
def pasteTarget (bundles : List HintBundle) (r : PatchRef) : Option RelPath :=
  if r.op bundles = some pasteOp then
    (r.patch.value.bind fun v => (bundleAt bundles r).vocabulary[v]?).bind fun w =>
      (pathOfBytes w).toOption
  else none

end PatchRef

/-- The patch pastes a file that another hint changes. -/
def PasteConflict (bundles : List HintBundle) (paths : PathToPatches) (r : PatchRef) : Prop :=
  ∃ file ∈ r.pasteTarget bundles, hasPatchesFromOtherHints r (paths.at file) = true

instance (bundles : List HintBundle) (paths : PathToPatches) (r : PatchRef) :
    Decidable (PasteConflict bundles paths r) :=
  inferInstanceAs (Decidable (∃ file ∈ r.pasteTarget bundles, _))

/-- Some patch deletes the file or directory. -/
def Removed (bundles : List HintBundle) (refs : List PatchRef) : Prop :=
  ∃ r ∈ refs, r.op bundles = some rmOp

instance (bundles : List HintBundle) (refs : List PatchRef) : Decidable (Removed bundles refs) :=
  inferInstanceAs (Decidable (∃ r ∈ refs, r.op bundles = some rmOp))

/-- The numbers in the patch refer to words, and a pasted file exists. -/
structure PatchRef.Valid (bundles : List HintBundle) (testCase : TestCase) (r : PatchRef) :
    Prop where
  operation : ∀ o ∈ r.patch.operation, o < (bundleAt bundles r).vocabulary.length
  value : ∀ v ∈ r.patch.value, v < (bundleAt bundles r).vocabulary.length
  paste : r.op bundles = some pasteOp → ∀ v ∈ r.patch.value,
    ((bundleAt bundles r).word v >>= pathOfBytes >>= testCase.readBytes).isOk

instance (bundles : List HintBundle) (testCase : TestCase) (r : PatchRef) :
    Decidable (r.Valid bundles testCase) :=
  decidable_of_iff ((∀ o ∈ r.patch.operation, o < (bundleAt bundles r).vocabulary.length) ∧
      (∀ v ∈ r.patch.value, v < (bundleAt bundles r).vocabulary.length) ∧
      (r.op bundles = some pasteOp → ∀ v ∈ r.patch.value,
        ((bundleAt bundles r).word v >>= pathOfBytes >>= testCase.readBytes).isOk))
    ⟨fun ⟨a, b, c⟩ => ⟨a, b, c⟩, fun ⟨a, b, c⟩ => ⟨a, b, c⟩⟩

theorem PatchRef.Valid.pasted (h : r.Valid bundles testCase) (hop : r.op bundles = some pasteOp)
    (hv : r.patch.value = some v) :
    ∃ file data, (bundleAt bundles r).word v >>= pathOfBytes = .ok file ∧
      testCase.readBytes file = .ok data := by
  have hok := h.paste hop v hv
  cases hread : (bundleAt bundles r).word v >>= pathOfBytes >>= testCase.readBytes with
  | error e =>
    rw [hread] at hok
    cases hok
  | ok data =>
    obtain ⟨file, hfile, hdata⟩ := except_bind_ok.1 hread
    exact ⟨file, data, hfile, hdata⟩

theorem word_ok {b : HintBundle} : b.word i = .ok w ↔ b.vocabulary[i]? = some w := by
  rw [HintBundle.word]
  cases b.vocabulary[i]? with
  | none => simp
  | some s => simp

theorem word_of_lt {b : HintBundle} (h : i < b.vocabulary.length) : ∃ w, b.word i = .ok w :=
  ⟨_, word_ok.2 (List.getElem?_eq_getElem h)⟩

theorem PatchRef.Valid.op (h : r.Valid bundles testCase) (ho : r.patch.operation = some o) :
    ∃ w, (bundleAt bundles r).word o = .ok w ∧ r.op bundles = some w := by
  obtain ⟨w, hw⟩ := word_of_lt (h.operation o ho)
  exact ⟨w, hw, by rw [PatchRef.op, ho, Option.bind_some, word_ok.1 hw]⟩

/-- `_take_rm_patch` succeeds, and takes a patch exactly when there is one. -/
theorem takeRmPatch_removed (entry : Entry) (stats : Dict Str Int)
    (h : ∀ r ∈ refs, r.Valid bundles testCase) :
    ∃ taken, takeRmPatch bundles entry stats refs = .ok taken ∧
      (taken.isSome ↔ Removed bundles refs) := by
  induction refs with
  | nil => exact ⟨none, rfl, by simp [Removed]⟩
  | cons r rs ih =>
    obtain ⟨hr, hrs⟩ := List.forall_mem_cons.1 h
    obtain ⟨taken, hok, hiff⟩ := ih hrs
    have hcons : Removed bundles (r :: rs) ↔ r.op bundles = some rmOp ∨ Removed bundles rs := by
      simp [Removed]
    rw [takeRmPatch, hcons]
    cases ho : r.patch.operation with
    | none =>
      have hop : r.op bundles = none := by rw [PatchRef.op, ho, Option.bind_none]
      exact ⟨taken, hok, by simp [hop, hiff]⟩
    | some o =>
      obtain ⟨w, hw, hop⟩ := hr.op ho
      by_cases hrm : w = rmOp
      · apply Exists.intro (some _)
        simp only [hw, hop, hrm]
        exact ⟨rfl, by simp⟩
      · apply Exists.intro taken
        simp only [hw, hop]
        simp only [bind, Except.bind, ne_eq, hrm, not_false_eq_true, if_true, hok]
        simpa [hrm] using hiff

theorem PatchRef.Valid.insertion (h : r.Valid bundles testCase) (paths : PathToPatches) :
    ∃ ins, insertion bundles testCase paths r = .ok ins ∧
      (ins = none ↔ PasteConflict bundles paths r) := by
  simp only [Cvise.insertion, PasteConflict, PatchRef.pasteTarget]
  cases hv : r.patch.value with
  | none => exact ⟨some [], rfl, by simp⟩
  | some v =>
    obtain ⟨w, hw⟩ := word_of_lt (h.value v hv)
    have hw' := word_ok.1 hw
    have hplain : r.op bundles ≠ some pasteOp →
        ∃ ins, (do return some (← (bundleAt bundles r).word v) : Except PyErr (Option Bytes)) =
          .ok ins ∧ (ins = none ↔ ∃ file ∈ (if r.op bundles = some pasteOp then
            ((some v).bind fun v => (bundleAt bundles r).vocabulary[v]?).bind fun w =>
              (pathOfBytes w).toOption else none),
            hasPatchesFromOtherHints r (paths.at file) = true) := by
      intro hne
      exact ⟨some w, by rw [hw]; rfl, by simp [hne]⟩
    cases ho : r.patch.operation with
    | none =>
      have hop : r.op bundles = none := by rw [PatchRef.op, ho, Option.bind_none]
      exact hplain (by simp [hop])
    | some o =>
      obtain ⟨w', hwo, hop⟩ := h.op ho
      by_cases hpaste : w' = pasteOp
      · subst hpaste
        obtain ⟨file, data, hfile, hdata⟩ := h.pasted hop hv
        have htarget : pathOfBytes w = .ok file := by
          rw [hw] at hfile
          exact hfile
        by_cases hother : hasPatchesFromOtherHints r (paths.at file) = true
        · apply Exists.intro none
          simp [hwo, hop, hw, hw', htarget, hother, bind, Except.bind, pure, Except.pure,
            Except.toOption]
        · apply Exists.intro (some data)
          simp [hwo, hop, hw, hw', htarget, hother, hdata, bind, Except.bind, pure, Except.pure,
            Except.toOption]
      · have hne : r.op bundles ≠ some pasteOp := by simpa [hop] using hpaste
        obtain ⟨ins, hins, hiff⟩ := hplain hne
        apply Exists.intro ins
        simp only [hwo]
        simp only [bind, Except.bind, pure, Except.pure, hpaste] at hins ⊢
        exact ⟨hins, hiff⟩

theorem applyPatch_none (h : applyPatch bundles testCase paths origData st r = .ok none) :
    insertion bundles testCase paths r = .ok none := by
  rw [applyPatch] at h
  split at h
  · split at h
    · rw [except_bind_ok] at h
      obtain ⟨ins, hins, h⟩ := h
      cases ins with
      | none => exact hins
      | some ins => cases h
    · cases h
  · cases h

theorem applyMerged_none
    (h : applyMerged bundles testCase paths file origData st refs = .ok none) :
    ∃ m ∈ refs, insertion bundles testCase paths m = .ok none := by
  induction refs generalizing st with
  | nil => cases h
  | cons m ms ih =>
    rw [applyMerged] at h
    split at h
    case h_1 st' happ =>
      obtain ⟨m', hm', hins⟩ := ih h
      exact ⟨m', List.mem_cons_of_mem _ hm', hins⟩
    case h_2 happ => exact ⟨m, List.mem_cons_self, applyPatch_none happ⟩
    case h_3 => cases h

theorem applyPatch_total (hr : r.Ranged) (hn : r.span.right ≤ origData.length)
    (hst : st.startPos ≤ r.span.left) (hins : insertion bundles testCase paths r = .ok ins) :
    ∃ res, applyPatch bundles testCase paths origData st r = .ok res ∧
      ∀ st' ∈ res, st'.startPos = r.span.right := by
  obtain ⟨l, hl⟩ := Option.isSome_iff_exists.1 hr.left_some
  obtain ⟨rt, hrt⟩ := Option.isSome_iff_exists.1 hr.right_some
  have hle := hr.left_le
  simp only [PatchRef.span, hl, hrt, Option.getD_some] at hn hst hle ⊢
  have hc : st.startPos ≤ l ∧ l ≤ origData.length ∧ l ≤ rt ∧ rt ≤ origData.length := by omega
  simp only [applyPatch, hl, hrt, if_pos hc, hins]
  cases ins with
  | none => exact ⟨none, rfl, by simp⟩
  | some toInsert => exact ⟨some _, rfl, by simp⟩

theorem applyMerged_total (file : RelPath)
    (hr : ∀ m ∈ refs, m.Ranged ∧ m.span.right ≤ origData.length)
    (hins : ∀ m ∈ refs, ∃ ins, insertion bundles testCase paths m = .ok ins)
    (hst : ∀ m ∈ refs, st.startPos ≤ m.span.left)
    (hs : (spansOf refs).Pairwise fun a b => a.right ≤ b.left) :
    ∃ res, applyMerged bundles testCase paths file origData st refs = .ok res := by
  induction refs generalizing st with
  | nil => exact ⟨_, rfl⟩
  | cons m ms ih =>
    obtain ⟨⟨hm, hn⟩, hms⟩ := List.forall_mem_cons.1 hr
    obtain ⟨⟨ins, hi⟩, his⟩ := List.forall_mem_cons.1 hins
    obtain ⟨hb, hs⟩ := List.pairwise_cons.1 hs
    obtain ⟨res, happ, hpos⟩ := applyPatch_total hm hn (hst m List.mem_cons_self) hi
    rw [applyMerged, happ]
    cases res with
    | none => exact ⟨none, rfl⟩
    | some st' =>
      apply ih hms his _ hs
      intro x hx
      rw [hpos st' rfl]
      exact hb x.span (List.mem_map_of_mem hx)

theorem insertion_stamp {m : PatchRef} (h : m.stamp = r.stamp) :
    insertion bundles testCase paths m = insertion bundles testCase paths r := by
  change insertion bundles testCase paths m.stamp = insertion bundles testCase paths r.stamp
  rw [h]

section file

variable (hr : ∀ r ∈ refs, r.Ranged)
include hr

theorem applyHintPatchesToFile_none (h : applyHintPatchesToFile bundles testCase paths file origData
    stats refs = .ok none) :
    ∃ r, Leads refs r ∧ insertion bundles testCase paths r = .ok none := by
  obtain ⟨m, hm, hins⟩ := applyMerged_none h
  obtain ⟨r, hlead, hs⟩ := (mem_mergeOverlappingPatches hr m.stamp).1 ⟨m, hm, rfl⟩
  exact ⟨r, hlead, insertion_stamp hs ▸ hins⟩

theorem applyHintPatchesToFile_total (testCase : TestCase) (paths : PathToPatches)
    (file : RelPath) (stats : Dict Str Int)
    (hn : ∀ r ∈ refs, r.span.right ≤ origData.length)
    (hins : ∀ r ∈ refs, ∃ ins, insertion bundles testCase paths r = .ok ins) :
    ∃ res, applyHintPatchesToFile bundles testCase paths file origData stats refs = .ok res := by
  apply applyMerged_total
  · intro m hm
    exact ⟨(mergeOverlappingPatches_span hr).2 m hm, right_mergeOverlappingPatches hr hn m hm⟩
  · intro m hm
    obtain ⟨r, hlead, hs⟩ := (mem_mergeOverlappingPatches hr m.stamp).1 ⟨m, hm, rfl⟩
    obtain ⟨ins, hi⟩ := hins r hlead.mem
    exact ⟨ins, insertion_stamp hs ▸ hi⟩
  · intro m _
    exact Nat.zero_le _
  · exact (mergeOverlappingPatches_separated hr).2.imp And.left

end file

/-- The contents of a regular file of the test case. -/
def Entry.contents : Entry → Option Bytes
  | .file data => some data
  | _ => none

/-- Hints that fit the directory tree: their numbers, paths and ranges are in bounds, pasted files
exist, and what lies in a deleted directory is deleted too. -/
structure WellFormed (bundles : List HintBundle) (t : DirTree) (paths : PathToPatches) : Prop where
  collect : collectPatches bundles = .ok paths
  valid : ∀ r ∈ allRefs bundles, r.Valid bundles (.dir t)
  ranged : ∀ e ∈ t.entries, ¬ Removed bundles (paths.at e.1) → ∀ data ∈ e.2.contents,
    ∀ r ∈ paths.at e.1, r.Ranged ∧ r.span.right ≤ data.length
  removed : ∀ e ∈ t.entries, e.1.dropLast ≠ [] → Removed bundles (paths.at e.1.dropLast) →
    Removed bundles (paths.at e.1)

instance (bundles : List HintBundle) (t : DirTree) (paths : PathToPatches) :
    Decidable (WellFormed bundles t paths) :=
  decidable_of_iff (collectPatches bundles = .ok paths ∧
      (∀ r ∈ allRefs bundles, r.Valid bundles (.dir t)) ∧
      (∀ e ∈ t.entries, ¬ Removed bundles (paths.at e.1) → ∀ data ∈ e.2.contents,
        ∀ r ∈ paths.at e.1, r.Ranged ∧ r.span.right ≤ data.length) ∧
      ∀ e ∈ t.entries, e.1.dropLast ≠ [] → Removed bundles (paths.at e.1.dropLast) →
        Removed bundles (paths.at e.1))
    ⟨fun ⟨a, b, c, d⟩ => ⟨a, b, c, d⟩, fun ⟨a, b, c, d⟩ => ⟨a, b, c, d⟩⟩

theorem at_subset (h : collectPatches bundles = .ok paths) (file : RelPath) :
    paths.at file ⊆ allRefs bundles := by
  intro r hr
  exact ((mem_at h file).1 hr).1

theorem WellFormed.valid_at (h : WellFormed bundles t paths) (file : RelPath) :
    ∀ r ∈ paths.at file, r.Valid bundles (.dir t) :=
  fun r hr => h.valid r (at_subset h.collect file hr)

/-- What the loop over the entries has created before it reaches the entries `es`. -/
structure Created (bundles : List HintBundle) (t : DirTree) (paths : PathToPatches)
    (dest : DirTree) (es : List (RelPath × Entry)) : Prop where
  before : ∀ x ∈ dest.entries, ∀ e ∈ es, x.1 < e.1
  parents : ∀ x ∈ t.entries, x ∈ es ∨ x.2 ≠ .dir ∨ Removed bundles (paths.at x.1) ∨ x ∈ dest.entries

theorem Created.accepts (hc : Created bundles t paths dest (e :: es))
    (h : WellFormed bundles t paths) (hes : ∀ x ∈ es, e.1 < x.1) (he : e ∈ t.entries)
    (hrm : ¬ Removed bundles (paths.at e.1)) : dest.Accepts e.1 := by
  obtain ⟨hne, hroot⟩ := t.rooted e he
  apply And.intro hne
  apply And.intro
  · rcases hroot with hroot | hparent
    · exact .inl hroot
    · by_cases hnil : e.1.dropLast = []
      · exact .inl hnil
      · apply Or.inr
        have hlt := dropLast_lt hne
        rcases hc.parents _ hparent with hin | hdir | hremoved | hdest
        · rcases List.mem_cons.1 hin with heq | hin
          · exact absurd (congrArg Prod.fst heq) hlt.ne
          · exact absurd (hlt.trans (hes _ hin)) (lt_irrefl _)
        · exact absurd rfl hdir
        · exact absurd (h.removed e he hnil hremoved) hrm
        · exact hdest
  · intro x hx
    exact hc.before x hx e List.mem_cons_self

theorem takeRmPatch_none_iff (h : ∀ r ∈ refs, r.Valid bundles testCase) (entry : Entry)
    (stats : Dict Str Int) :
    takeRmPatch bundles entry stats refs = .ok none ↔ ¬ Removed bundles refs := by
  obtain ⟨taken, hok, hiff⟩ := takeRmPatch_removed entry stats h
  rw [hok, Except.ok.injEq, ← hiff, Option.not_isSome_iff_eq_none]

theorem takeRmPatch_some (h : takeRmPatch bundles entry stats refs = .ok (some stats')) :
    Removed bundles refs := by
  induction refs with
  | nil => cases h
  | cons r rs ih =>
    have hrest : takeRmPatch bundles entry stats rs = .ok (some stats') → Removed bundles (r :: rs) := by
      intro h
      obtain ⟨s, hs, hop⟩ := ih h
      exact ⟨s, List.mem_cons_of_mem _ hs, hop⟩
    rw [takeRmPatch] at h
    cases ho : r.patch.operation with
    | none =>
      rw [ho] at h
      exact hrest h
    | some o =>
      simp only [ho, except_bind_ok] at h
      obtain ⟨w, hw, h⟩ := h
      split at h
      · exact hrest h
      · rename_i hrm
        have hop : r.op bundles = some w := by rw [PatchRef.op, ho, Option.bind_some, word_ok.1 hw]
        exact ⟨r, List.mem_cons_self, by rw [hop, not_not.1 hrm]⟩

theorem Created.step (hc : Created bundles t paths dest (e :: es)) (hes : ∀ x ∈ es, e.1 < x.1)
    (hstep : EntryStep bundles (.dir t) paths e.1 stats dest e.2 dest') :
    Created bundles t paths dest' es := by
  obtain ⟨p, entry⟩ := e
  have hbefore : ∀ x ∈ dest.entries, ∀ e ∈ es, x.1 < e.1 := fun x hx e he =>
    hc.before x hx e (List.mem_cons_of_mem _ he)
  have hparents : (entry ≠ .dir ∨ Removed bundles (paths.at p) ∨ (p, entry) ∈ dest'.entries) →
      ∀ x ∈ t.entries, x ∈ es ∨ x.2 ≠ .dir ∨ Removed bundles (paths.at x.1) ∨ x ∈ dest'.entries := by
    intro hp x hx
    rcases hc.parents x hx with hin | hin | hin | hin
    · rcases List.mem_cons.1 hin with rfl | hin
      · exact .inr hp
      · exact .inl hin
    · exact .inr (.inl hin)
    · exact .inr (.inr (.inl hin))
    · exact .inr (.inr (.inr (hstep.entries_subset hin)))
  have hnew : ∀ entry', dest'.entries = dest.entries ++ [(p, entry')] →
      ∀ x ∈ dest'.entries, ∀ e ∈ es, x.1 < e.1 := by
    intro entry' hd x hx
    rw [hd, List.mem_append, List.mem_singleton] at hx
    rcases hx with hx | rfl
    · exact hbefore x hx
    · exact hes
  cases hstep with
  | rm htake => exact ⟨hbefore, hparents (.inr (.inl (takeRmPatch_some htake)))⟩
  | symlink _ => exact ⟨hbefore, hparents (.inl (by simp))⟩
  | dir _ hd => exact ⟨hnew _ hd, hparents (.inr (.inr (by simp [hd])))⟩
  | file _ _ hd => exact ⟨hnew _ hd, hparents (.inl (by simp))⟩

theorem WellFormed.file_total (h : WellFormed bundles t paths) (he : (p, .file data) ∈ t.entries)
    (hrm : ¬ Removed bundles (paths.at p)) (stats : Dict Str Int) :
    ∃ res, applyHintPatchesToFile bundles (.dir t) paths p data stats (paths.at p) = .ok res := by
  have hranged := h.ranged _ he hrm data rfl
  apply applyHintPatchesToFile_total (fun r hr => (hranged r hr).1)
  · intro r hr
    exact (hranged r hr).2
  · intro r hr
    obtain ⟨ins, hins, _⟩ := (h.valid_at p r hr).insertion paths
    exact ⟨ins, hins⟩

theorem applyToEntry_total (hc : Created bundles t paths dest (e :: es))
    (h : WellFormed bundles t paths) (hes : ∀ x ∈ es, e.1 < x.1) (he : e ∈ t.entries)
    (report : HintApplicationReport) :
    ∃ res, applyToEntry bundles (.dir t) paths dest report e.1 e.2 = .ok res := by
  obtain ⟨p, entry⟩ := e
  obtain ⟨taken, htake, hiff⟩ := takeRmPatch_removed entry report.statsDeltaPerPass (h.valid_at p)
  apply except_bind_isOk.2
  apply Exists.intro taken
  apply And.intro htake
  cases taken with
  | some stats => exact ⟨_, rfl⟩
  | none =>
    have hrm : ¬ Removed bundles (paths.at p) := by simpa using hiff
    have hacc := hc.accepts h hes he hrm
    have hcreate : ∀ entry', ∃ dest', dest.create p entry' = .ok dest' := by
      intro entry'
      exact ⟨_, dif_pos hacc⟩
    cases entry with
    | symlink text dest₀ => exact ⟨_, rfl⟩
    | dir =>
      obtain ⟨dest', hd⟩ := hcreate .dir
      exact except_bind_isOk.2 ⟨dest', hd, _, rfl⟩
    | file data =>
      obtain ⟨res, hres⟩ := h.file_total he hrm report.statsDeltaPerPass
      apply except_bind_isOk.2
      apply Exists.intro res
      apply And.intro hres
      cases res with
      | none => exact ⟨_, rfl⟩
      | some res =>
        obtain ⟨dest', hd⟩ := hcreate (.file res.1)
        exact except_bind_isOk.2 ⟨dest', hd, _, rfl⟩

theorem applyToEntries_total (h : WellFormed bundles t paths)
    (hc : Created bundles t paths dest es) (hsub : es ⊆ t.entries)
    (hs : es.Pairwise fun a b => a.1 < b.1) (report : HintApplicationReport) :
    ∃ res, applyToEntries bundles (.dir t) paths dest report es = .ok res := by
  induction es generalizing dest report with
  | nil => exact ⟨_, rfl⟩
  | cons e es ih =>
    obtain ⟨he, hes⟩ := List.pairwise_cons.1 hs
    obtain ⟨res, hres⟩ := applyToEntry_total hc h he (hsub List.mem_cons_self) report
    apply except_bind_isOk.2
    apply Exists.intro res
    apply And.intro hres
    cases res with
    | none => exact ⟨_, rfl⟩
    | some next =>
      have hc' := hc.step he (applyToEntry_step hres)
      exact ih hc' (fun x hx => hsub (List.mem_cons_of_mem _ hx)) hes next.2

theorem WellFormed.applyHints_total (h : WellFormed bundles t paths) :
    ∃ res, applyHints bundles (.dir t) = .ok res := by
  have hc : Created bundles t paths .empty t.entries :=
    ⟨fun x hx => (List.not_mem_nil hx).elim, fun x hx => .inl hx⟩
  obtain ⟨res, hres⟩ := applyToEntries_total h hc (fun x hx => hx) t.sorted ⟨[], []⟩
  apply except_bind_isOk.2
  apply Exists.intro paths
  apply And.intro h.collect
  apply except_bind_isOk.2
  apply Exists.intro res
  apply And.intro hres
  cases res with
  | none => exact ⟨_, rfl⟩
  | some res => exact ⟨_, rfl⟩

theorem applyToEntries_none
    (h : applyToEntries bundles testCase paths dest report es = .ok none) :
    ∃ e ∈ es, ∃ data stats, e.2 = .file data ∧
      takeRmPatch bundles e.2 stats (paths.at e.1) = .ok none ∧
      applyHintPatchesToFile bundles testCase paths e.1 data stats (paths.at e.1) = .ok none := by
  induction es generalizing dest report with
  | nil => cases h
  | cons e es ih =>
    rw [applyToEntries, except_bind_ok] at h
    obtain ⟨res, hres, h⟩ := h
    cases res with
    | some next =>
      obtain ⟨e', he', hfound⟩ := ih h
      exact ⟨e', List.mem_cons_of_mem _ he', hfound⟩
    | none =>
      apply Exists.intro e
      apply And.intro List.mem_cons_self
      obtain ⟨p, entry⟩ := e
      simp only [applyToEntry, except_bind_ok] at hres
      obtain ⟨taken, htake, hres⟩ := hres
      cases taken with
      | some stats => cases hres
      | none =>
        cases entry with
        | symlink text dest₀ => cases hres
        | dir =>
          rw [except_bind_ok] at hres
          obtain ⟨_, _, hres⟩ := hres
          cases hres
        | file data =>
          rw [except_bind_ok] at hres
          obtain ⟨edited, hedit, hres⟩ := hres
          cases edited with
          | none => exact ⟨data, _, rfl, htake, hedit⟩
          | some edit =>
            rw [except_bind_ok] at hres
            obtain ⟨_, _, hres⟩ := hres
            cases hres

def KeptConflict (bundles : List HintBundle) (t : DirTree) (paths : PathToPatches) : Prop :=
  ∃ e ∈ t.entries, e.2.contents.isSome ∧ ¬ Removed bundles (paths.at e.1) ∧
    ∃ r ∈ paths.at e.1, Leads (paths.at e.1) r ∧ PasteConflict bundles paths r

theorem WellFormed.keptConflict_of_none (h : WellFormed bundles t paths)
    (hnone : applyHints bundles (.dir t) = .ok none) : KeptConflict bundles t paths := by
  simp only [applyHints, h.collect, except_bind_ok] at hnone
  obtain ⟨_, hp, res, hres, hnone⟩ := hnone
  cases hp
  cases res with
  | some res => cases hnone
  | none =>
    obtain ⟨⟨p, entry⟩, he, data, stats, hfile, htake, happ⟩ := applyToEntries_none hres
    cases hfile
    have hrm := (takeRmPatch_none_iff (h.valid_at p) _ _).1 htake
    have hranged := h.ranged _ he hrm data rfl
    obtain ⟨r, hlead, hins⟩ := applyHintPatchesToFile_none (fun r hr => (hranged r hr).1) happ
    obtain ⟨ins, hins', hiff⟩ := (h.valid_at p r hlead.mem).insertion paths
    cases hins.symm.trans hins'
    exact ⟨_, he, rfl, hrm, r, hlead.mem, hlead, hiff.1 rfl⟩

end Cvise
