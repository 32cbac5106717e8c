import Cvise.ApplyHints
import Mathlib.Algebra.BigOperators.Group.List.Basic

namespace Cvise
set_option autoImplicit true

variable {bundles : List HintBundle} {paths : PathToPatches} {testCase : TestCase}

/-- The statistics have one entry for each pass, and these sum up to `n`. -/
structure Booked (stats : Dict Str Int) (n : Int) : Prop where
  nodup : (stats.map Prod.fst).Nodup
  total : (stats.map Prod.snd).sum = n

namespace Booked

theorem nil : Booked [] 0 := ⟨List.nodup_nil, rfl⟩

theorem total_map {stats : Dict Str Int} (hnodup : (stats.map Prod.fst).Nodup)
    (hmem : name ∈ stats.map Prod.fst) (delta : Int) :
    ((stats.map fun s => if s.1 = name then (s.1, s.2 + delta) else s).map Prod.snd).sum =
      (stats.map Prod.snd).sum + delta := by
  induction stats with
  | nil => cases hmem
  | cons s stats ih =>
    rw [List.map_cons, List.nodup_cons] at hnodup
    by_cases hs : s.1 = name
    · have hrest : stats.map (fun s => if s.1 = name then (s.1, s.2 + delta) else s) = stats := by
        refine (List.map_congr_left fun x hx => if_neg fun hx' => ?_).trans (List.map_id _)
        exact hnodup.1 (List.mem_map.2 ⟨x, hx, hx'.trans hs.symm⟩)
      rw [List.map_cons, hrest, if_pos hs]
      simp only [List.map_cons, List.sum_cons]
      omega
    · have hmem' : name ∈ stats.map Prod.fst :=
        (List.mem_cons.1 hmem).resolve_left fun heq => hs heq.symm
      rw [List.map_cons, if_neg hs, List.map_cons, List.sum_cons, ih hnodup.2 hmem', List.map_cons,
        List.sum_cons, add_assoc]

theorem add (h : Booked stats n) (name : Str) (delta : Int) :
    Booked (addStat stats name delta) (n + delta) := by
  rw [addStat]
  split
  · rename_i hany
    have hmem : name ∈ stats.map Prod.fst := by
      obtain ⟨s, hs, heq⟩ := List.any_eq_true.1 hany
      exact List.mem_map.2 ⟨s, hs, of_decide_eq_true heq⟩
    constructor
    · have hkeys : (stats.map fun s => if s.1 = name then (s.1, s.2 + delta) else s).map Prod.fst =
          stats.map Prod.fst := by
        rw [List.map_map]
        apply List.map_congr_left
        intro s _
        rw [Function.comp_apply]
        split
        · rfl
        · rfl
      rw [hkeys]
      exact h.nodup
    · rw [total_map h.nodup hmem, h.total]
  · rename_i hnone
    constructor
    · rw [List.map_append]
      refine h.nodup.append (List.nodup_singleton _) ?_
      rw [List.map_singleton, List.disjoint_singleton]
      intro hmem
      obtain ⟨s, hs, heq⟩ := List.mem_map.1 hmem
      exact hnone (List.any_eq_true.2 ⟨s, hs, decide_eq_true heq⟩)
    · simp [h.total]

end Booked

/-- A patch books the bytes that it inserts, less those that it skips. -/
theorem applyPatch_booked (h : applyPatch bundles testCase paths origData st r = .ok (some st'))
    (hb : Booked st.stats n) :
    st'.startPos ≤ origData.length ∧ Booked st'.stats
      (n + (st'.newData.length - st'.startPos) - (st.newData.length - st.startPos)) := by
  rw [applyPatch] at h
  split at h
  · rename_i left right _ _
    split at h
    · rename_i hrange
      obtain ⟨ins, _, h⟩ := except_bind_ok.1 h
      cases ins with
      | none => cases h
      | some ins =>
        cases h
        obtain ⟨hfrom, hleft, hle, hright⟩ := hrange
        refine ⟨hright, ?_⟩
        have hbooked := (hb.add (bundleAt bundles r).passUserVisibleName ((left : Int) - right)).add
          (bundleAt bundles r).passUserVisibleName ins.length
        have hlength : ((st.newData ++ (origData.take left).drop st.startPos ++ ins).length : Int) =
            st.newData.length + (left - st.startPos) + ins.length := by
          simp only [List.length_append, List.length_drop, List.length_take]
          omega
        refine ⟨hbooked.nodup, hbooked.total.trans ?_⟩
        simp only [hlength]
        omega
    · cases h
  · cases h

theorem applyMerged_booked
    (h : applyMerged bundles testCase paths file origData st ms = .ok (some (out, stats)))
    (hst : st.startPos ≤ origData.length) (hb : Booked st.stats n) :
    Booked stats (n + out.length - origData.length - (st.newData.length - st.startPos)) := by
  induction ms generalizing st n with
  | nil =>
    cases h
    refine ⟨hb.nodup, hb.total.trans ?_⟩
    simp only [List.length_append, List.length_drop]
    omega
  | cons r rs ih =>
    rw [applyMerged] at h
    split at h
    · rename_i st' happ
      obtain ⟨hst', hb'⟩ := applyPatch_booked happ hb
      have hrest := ih h hst' hb'
      refine ⟨hrest.nodup, hrest.total.trans ?_⟩
      omega
    · cases h
    · cases h

theorem applyHintPatchesToFile_booked
    (h : applyHintPatchesToFile bundles testCase paths file origData stats refs =
      .ok (some (out, stats')))
    (hb : Booked stats n) : Booked stats' (n + (out.length - origData.length)) := by
  have hmerged := applyMerged_booked h (Nat.zero_le _) hb
  refine ⟨hmerged.nodup, hmerged.total.trans ?_⟩
  simp only [List.length_nil]
  omega

theorem takeRmPatch_booked
    (h : takeRmPatch bundles entry stats refs = .ok (some stats')) (hb : Booked stats n) :
    Booked stats' (n - (if entry.isFile then (entry.lstatSize : Int) else 0)) := by
  induction refs with
  | nil => cases h
  | cons r rs ih =>
    rw [takeRmPatch] at h
    split at h
    · exact ih h
    · obtain ⟨w, _, h⟩ := except_bind_ok.1 h
      split at h
      · exact ih h
      · cases h
        exact hb.add _ _

/-- The total size of the regular files among the entries. -/
def entriesSize (es : List (RelPath × Entry)) : Nat :=
  ((es.filter fun e => e.2.isFile && !e.2.isSymlink).map (·.2.lstatSize)).sum

theorem entriesSize_append (es es' : List (RelPath × Entry)) :
    entriesSize (es ++ es') = entriesSize es + entriesSize es' := by
  rw [entriesSize, List.filter_append, List.map_append, List.sum_append]
  rfl

theorem applyToEntry_booked
    (h : applyToEntry bundles testCase paths dest report path entry = .ok (some (dest', report')))
    (hplain : entry.isSymlink = false) (hb : Booked report.statsDeltaPerPass n) :
    Booked report'.statsDeltaPerPass
      (n + (entriesSize dest'.entries - entriesSize dest.entries) - entriesSize [(path, entry)]) := by
  simp only [applyToEntry, except_bind_ok] at h
  obtain ⟨taken, htaken, h⟩ := h
  cases taken with
  | some stats =>
    cases h
    have hbooked := takeRmPatch_booked htaken hb
    refine ⟨hbooked.nodup, hbooked.total.trans ?_⟩
    cases hfile : entry.isFile with
    | true => simp [entriesSize, hfile, hplain]
    | false => simp [entriesSize, hfile]
  | none =>
    cases entry with
    | symlink text dest₀ => cases hplain
    | dir =>
      obtain ⟨dest₁, hcreate, h⟩ := except_bind_ok.1 h
      cases h
      rw [DirTree.create_entries hcreate, entriesSize_append]
      refine ⟨hb.nodup, hb.total.trans ?_⟩
      simp [entriesSize, Entry.isFile]
    | file data =>
      obtain ⟨edited, hedit, h⟩ := except_bind_ok.1 h
      cases edited with
      | none => cases h
      | some edit =>
        obtain ⟨dest₁, hcreate, h⟩ := except_bind_ok.1 h
        cases h
        have hbooked := applyHintPatchesToFile_booked hedit hb
        rw [DirTree.create_entries hcreate, entriesSize_append]
        refine ⟨hbooked.nodup, hbooked.total.trans ?_⟩
        simp [entriesSize, Entry.isFile, Entry.isSymlink, Entry.lstatSize]
        omega

theorem applyToEntries_booked
    (h : applyToEntries bundles testCase paths dest report es = .ok (some (dest', report')))
    (hplain : ∀ e ∈ es, e.2.isSymlink = false) (hb : Booked report.statsDeltaPerPass n) :
    Booked report'.statsDeltaPerPass
      (n + (entriesSize dest'.entries - entriesSize dest.entries) - entriesSize es) := by
  induction es generalizing dest report n with
  | nil =>
    cases h
    refine ⟨hb.nodup, hb.total.trans ?_⟩
    simp [entriesSize]
  | cons e es ih =>
    obtain ⟨he, hes⟩ := List.forall_mem_cons.1 hplain
    rw [applyToEntries, except_bind_ok] at h
    obtain ⟨applied, happlied, h⟩ := h
    cases applied with
    | none => cases h
    | some next =>
      have hrest := ih h hes (applyToEntry_booked happlied he hb)
      refine ⟨hrest.nodup, hrest.total.trans ?_⟩
      have hsize : entriesSize (e :: es) = entriesSize [(e.1, e.2)] + entriesSize es :=
        entriesSize_append [e] es
      omega

/-- The total size of what is at a destination, where a deleted file leaves nothing. -/
def destinationSize : Option TestCase → Nat
  | none => 0
  | some tc => tc.getFileSize

/-- The statistics of `apply_hints` sum up to the change of the total size, for test cases without
symlinks. -/
theorem applyHints_sizes (bundles : List HintBundle) (source : TestCase)
    (hplain : ∀ e ∈ source.descendants, e.2.isSymlink = false) :
    ∀ dest report, applyHints bundles source = .ok (some (dest, report)) →
      (report.statsDeltaPerPass.map Prod.snd).sum =
        (destinationSize dest : Int) - source.getFileSize := by
  intro dest report h
  rw [applyHints, except_bind_ok] at h
  obtain ⟨paths, _, h⟩ := h
  cases source with
  | dir t =>
    obtain ⟨applied, happlied, h⟩ := except_bind_ok.1 h
    cases applied with
    | none => cases h
    | some result =>
      cases h
      have hbooked := applyToEntries_booked happlied hplain .nil
      have hempty : entriesSize DirTree.empty.entries = 0 := rfl
      rw [hbooked.total, hempty]
      simp [destinationSize, TestCase.getFileSize, entriesSize]
  | file data =>
    obtain ⟨taken, htaken, h⟩ := except_bind_ok.1 h
    cases taken with
    | some stats =>
      cases h
      rw [(takeRmPatch_booked htaken .nil).total]
      simp [destinationSize, TestCase.getFileSize, Entry.isFile, Entry.lstatSize]
    | none =>
      obtain ⟨edited, hedit, h⟩ := except_bind_ok.1 h
      cases edited with
      | none => cases h
      | some edit =>
        cases h
        rw [(applyHintPatchesToFile_booked hedit .nil).total]
        simp [destinationSize, TestCase.getFileSize]

/-- A file is deleted, and in another one a deletion takes in a replacement of another pass. -/
def removingBundles : List HintBundle :=
  [{ hints := [{ patches := [{ path := some 0, operation := some 1 }] },
      { patches := [{ path := some 2, left := some 0, right := some 2 }] }]
     passUserVisibleName := ['p']
     vocabulary := [[0x61], rmOp, [0x62]] },
   { hints := [{ patches := [{ path := some 0, left := some 1, right := some 3, value := some 1 }] },
      { patches := [{ path := some 0, left := some 4, right := some 4, value := some 1 }] }]
     passUserVisibleName := ['q']
     vocabulary := [[0x62], [0x58, 0x59]] }]

def twoFiles : DirTree where
  entries := [([['a']], .file [0]), ([['b']], .file [1, 2, 3, 4])]
  sorted := by decide
  rooted := by decide

/-- The statistics of both passes sum up to the difference of the sizes. -/
theorem applyHints_sizes_removing : ∃ dest report,
    applyHints removingBundles (.dir twoFiles) = .ok (some (some dest, report)) ∧
      report.statsDeltaPerPass = [(['p'], -4), (['q'], 2)] ∧ dest.getFileSize = 3 ∧
        (report.statsDeltaPerPass.map Prod.snd).sum = 3 - 5 := by
  have happly : applyHints removingBundles (.dir twoFiles) = .ok (some
      (some (.dir ⟨[([['b']], .file [4, 0x58, 0x59])], by decide, by decide⟩),
        ⟨[(['p'], -4), (['q'], 2)], [[['b']]]⟩)) := by decide
  exact ⟨_, _, happly, rfl, rfl, applyHints_sizes _ _ (by decide) _ _ happly⟩

end Cvise
