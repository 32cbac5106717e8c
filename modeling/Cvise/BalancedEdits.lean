import Cvise.BalancedHints
import Cvise.BracketCuts
import Cvise.SubtractedEdits

namespace Cvise
set_option autoImplicit true

/-- What is unmatched after edits: what the kept positions leave, if the texts that the edits put in
have no brackets. -/
theorem unmatched_editedFile {o c : UInt8} {data : Bytes} {edits : List Edit}
    (h : ∀ e ∈ edits, ∀ b ∈ e.text, b ≠ o ∧ b ≠ c) :
    Brackets.unmatched o c (editedFile data edits) =
      Brackets.scan o c data (fun i => ∃ e ∈ edits, e.left ≤ i ∧ i < e.right) 0 (data.length + 1)
        {} := by
  have hplain (text : Bytes) (htext : ∀ b ∈ text, b ≠ o ∧ b ≠ c) (u : Unmatched) :
      text.foldl (Brackets.read o c) u = u := by
    induction text with
    | nil => rfl
    | cons b text ih =>
      obtain ⟨⟨ho, hc⟩, hrest⟩ := List.forall_mem_cons.1 htext
      rw [List.foldl_cons, Brackets.read, if_neg ho, if_neg hc, ih hrest]
  have hcell (i : Nat) (u : Unmatched) :
      (cell id data (sortedSpans edits) i).foldl (Brackets.read o c) u =
        if ∃ e ∈ edits, e.left ≤ i ∧ i < e.right then u
        else data[i]?.toList.foldl (Brackets.read o c) u := by
    have hgroup : ∀ b ∈ groupText id (sortedSpans edits) i, b ≠ o ∧ b ≠ c := by
      intro b hb
      rw [groupText] at hb
      split at hb
      · cases hfirst : firstAt (sortedSpans edits) i with
        | none =>
          rw [hfirst] at hb
          cases hb
        | some x =>
          rw [hfirst] at hb
          obtain ⟨e, he, rfl⟩ := List.mem_map.1 (List.mem_of_find?_eq_some hfirst)
          exact h e ((List.mem_insertionSort _).1 he) b hb
      · cases hb
    rw [cell, List.foldl_append, hplain _ hgroup]
    simp only [covered_sortedSpans]
    split
    · rfl
    · rfl
  rw [Brackets.unmatched, editedFile, rewriteSpans, List.foldl_flatMap, Brackets.scan,
    List.range_eq_range']
  exact congrFun (congrFun (congrArg _ (funext fun u => funext fun i => hcell i u)) _) _

theorem unmatched_eq_scan {o c : UInt8} (data : Bytes) : Brackets.unmatched o c data =
    Brackets.scan o c data (fun _ => False) 0 (data.length + 1) {} := by
  have hnil := @unmatched_editedFile o c data [] fun e he => absurd he List.not_mem_nil
  rw [editedFile_nil] at hnil
  exact hnil.trans (Brackets.scan_congr (fun i _ _ => by simp) _)

namespace BalancedPass

variable {config : Config} {contents : Bytes}

def cutOfPair (config : Config) (contents : Bytes) (x : Nat × Nat) : Brackets.Cut where
  start := (startOf config contents x.1).getD x.1
  opener := x.1
  closer := x.2
  ends := config.toDelete ≠ .inside
  inside := config.toDelete ≠ .only

theorem cutOfPair_valid (hsane : config.Sane) (hx : x ∈ pairsOf config contents) :
    (cutOfPair config contents x).Valid config.search.openCh config.search.closeCh contents := by
  obtain ⟨i, j⟩ := x
  have hm := (Brackets.mem_stackPairs hsane.bracketsDiffer).1 hx
  rw [cutOfPair, startOf]
  split
  · cases hp : prefixBefore contents i with
    | none => exact ⟨hm, Nat.le_refl i, fun k hl hr => absurd (hl.trans_lt hr) (Nat.lt_irrefl i)⟩
    | some start =>
      obtain ⟨hlt, hequals, hblanks⟩ := prefixBefore_eq_some.1 hp
      refine ⟨hm, hlt.le, fun k hl hr => ?_⟩
      have hpos : start ≤ k := hl
      rcases hpos.lt_or_eq with hgt | rfl
      · have hblank (b : UInt8) (hb : contents[k]? = some b) : isSpaceByte b = true := by
          refine hblanks b (List.mem_of_getElem? (i := k - (start + 1)) ?_)
          rw [List.getElem?_drop, show start + 1 + (k - (start + 1)) = k by omega,
            List.getElem?_take_of_lt hr, hb]
        constructor
        · intro ho
          exact Bool.noConfusion ((hblank _ ho).symm.trans hsane.openNotBlank)
        · intro hc
          exact Bool.noConfusion ((hblank _ hc).symm.trans hsane.closeNotBlank)
      · rw [hequals]
        exact ⟨fun ho => hsane.notEquals.1 (Option.some.inj ho).symm,
          fun hc => hsane.notEquals.2 (Option.some.inj hc).symm⟩
  · exact ⟨hm, Nat.le_refl i, fun k hl hr => absurd (hl.trans_lt hr) (Nat.lt_irrefl i)⟩

/-- The patches of a pair's hint cover what its cut takes. -/
theorem covers_iff (hsane : config.Sane) (hlt : x.1 < x.2)
    (h : prescribedHint config none contents x = some hint) (i : Nat) :
    (∃ p ∈ hint.patches, p.left.getD 0 ≤ i ∧ i < p.right.getD 0) ↔
      (cutOfPair config contents x).Takes i := by
  rw [prescribedHint] at h
  cases hstart : startOf config contents x.1 with
  | none =>
    rw [hstart] at h
    cases h
  | some start =>
    simp only [hstart] at h
    split at h
    · cases h
    · obtain rfl := Option.some.inj h
      simp only [cutOfPair, hstart, Brackets.Cut.Takes, Option.getD_some]
      cases hd : config.toDelete with
      | all =>
        simp [prescribedRanges]
        have hle : start ≤ x.1 := by
          rw [startOf] at hstart
          split at hstart
          · exact (prefixBefore_eq_some.1 hstart).1.le
          · exact (Option.some.inj hstart).ge
        omega
      | only =>
        have hp : start = x.1 := by
          rcases hsane.searchPrefix with hnone | ⟨-, hall⟩
          · rw [startOf, hnone] at hstart
            exact (Option.some.inj hstart).symm
          · cases hd.symm.trans hall
        simp [prescribedRanges, hp]
        omega
      | inside =>
        simp only [prescribedRanges, List.map_cons, List.map_nil, List.mem_singleton, exists_eq_left,
          Option.getD_some, ne_eq, not_true_eq_false, decide_false, Bool.false_eq_true, false_and,
          false_or]
        have honly : (decide ¬Deletion.inside = Deletion.only) = true := rfl
        simp only [honly, true_and, Nat.succ_le_iff]

/-- The hints are those of the standard matching of the brackets, in the order of their ends. -/
def HintsArePairs (config : Config) (contents : Bytes) : Prop :=
  ∃ pairs : List (Nat × Nat),
    (∀ i j, (i, j) ∈ pairs ↔
      Brackets.Matched config.search.openCh config.search.closeCh contents i j) ∧
    pairs.Pairwise (fun x y => x.2 < y.2) ∧
    (generateHints config [(none, contents)]).hints =
      pairs.filterMap (prescribedHint config none contents)

/-- Whichever of the hints are applied, as many brackets of each kind are unmatched as before. -/
def SubsetsKeepUnmatched (config : Config) (contents : Bytes) : Prop :=
  ∀ hs, (∀ h ∈ hs, h ∈ (generateHints config [(none, contents)]).hints) → ∃ out report,
    applyHints [{ generateHints config [(none, contents)] with hints := hs }] (.file contents) =
      .ok (some (some (.file out), report)) ∧
    Brackets.unmatched config.search.openCh config.search.closeCh out =
      Brackets.unmatched config.search.openCh config.search.closeCh contents

theorem generateHints_file (config : Config) (contents : Bytes) :
    (generateHints config [(none, contents)]).hints =
      generateHintsForFile config none contents := List.nil_append _

theorem pair_of_hint (hsane : config.Sane)
    (h : hint ∈ (generateHints config [(none, contents)]).hints) :
    ∃ x ∈ pairsOf config contents, prescribedHint config none contents x = some hint := by
  rw [generateHints_file, hints_eq_pairs hsane] at h
  exact List.mem_filterMap.1 h

theorem pair_bounds (hsane : config.Sane) (hx : x ∈ pairsOf config contents) :
    x.1 < x.2 ∧ x.2 < contents.length := by
  have hm := (Brackets.mem_stackPairs hsane.bracketsDiffer).1 (show (x.1, x.2) ∈ _ from hx)
  exact ⟨hm.lt, (List.getElem?_eq_some_iff.1 hm.closer).1⟩

/-- The patches that a mode prescribes lie in the file. -/
theorem prescribed_within (hsane : config.Sane) (hx : x ∈ pairsOf config contents)
    (h : prescribedHint config none contents x = some hint) (hs : List Hint) :
    ∀ p ∈ hint.patches, p.path = none ∧ Patch.Within
      { generateHints config [(none, contents)] with hints := hs } contents.length p := by
  obtain ⟨hlt, hlen⟩ := pair_bounds hsane hx
  have hstart := (cutOfPair_valid hsane hx).start_le
  rw [cutOfPair] at hstart
  rw [prescribedHint] at h
  split at h
  · cases h
  · rename_i start hs
    rw [hs, Option.getD_some] at hstart
    split at h
    · cases h
    · rename_i hempty
      obtain rfl := Option.some.inj h
      intro p hp
      obtain ⟨r, hr, rfl⟩ := List.mem_map.1 hp
      have hrange : r.1 ≤ r.2 ∧ r.2 ≤ contents.length := by
        cases hd : config.toDelete <;> rw [hd] at hr <;> simp [prescribedRanges] at hr
        · subst hr
          exact ⟨by simp only at hstart ⊢; omega, hlen⟩
        · rcases hr with rfl | rfl
          · exact ⟨Nat.le_succ _, by simp only; omega⟩
          · exact ⟨Nat.le_succ _, hlen⟩
        · subst hr
          exact ⟨hlt, hlen.le⟩
      refine ⟨rfl, rfl, rfl, hrange.1, hrange.2, rfl, fun v hv => ?_⟩
      by_cases hrep : config.replacement = []
      · rw [if_pos hrep] at hv
        cases hv
      · rw [if_neg hrep] at hv
        obtain rfl := Option.some.inj hv
        show 0 < (if config.replacement ≠ [] then [config.replacement] else []).length
        rw [if_pos hrep]
        exact Nat.one_pos

theorem subsets_keep_unmatched (hsane : config.Sane) (contents : Bytes) :
    SubsetsKeepUnmatched config contents := by
  intro hs hsub
  let b : HintBundle := { generateHints config [(none, contents)] with hints := hs }
  have hpair : ∀ h ∈ hs, ∃ x ∈ pairsOf config contents,
      prescribedHint config none contents x = some h := fun h hh => pair_of_hint hsane (hsub h hh)
  have hpatch : ∀ h ∈ hs, ∀ p ∈ h.patches, p.path = none ∧ p.Within b contents.length := by
    intro h hh p hp
    obtain ⟨x, hx, hpre⟩ := hpair h hh
    exact prescribed_within hsane hx hpre hs p hp
  have hpath : ∀ h ∈ hs, ∀ p ∈ h.patches, b.pathOf p = .ok [] := by
    intro h hh p hp
    rw [HintBundle.pathOf, (hpatch h hh p hp).1]
  have hfits : ∀ b' ∈ [b], b'.Fits (.file contents) := by
    intro b' hb' h hh p hp
    obtain rfl := List.mem_singleton.1 hb'
    exact ⟨[], contents, hpath h hh p hp, ⟨rfl, rfl⟩, (hpatch h hh p hp).2⟩
  obtain ⟨dest, report, happly, hedited⟩ := applyHints_edited hfits
  rw [Edited, List.flatMap_cons, List.flatMap_nil, List.append_nil] at hedited
  subst hedited
  refine ⟨_, report, happly, ?_⟩
  have htext : ∀ e ∈ b.editsAt [], ∀ c ∈ e.text,
      c ≠ config.search.openCh ∧ c ≠ config.search.closeCh := by
    intro e he c hc
    obtain ⟨p, -, rfl⟩ := List.mem_map.1 he
    refine hsane.replacement c ?_
    rw [HintBundle.editOf] at hc
    cases hv : p.value with
    | none =>
      rw [hv] at hc
      cases hc
    | some v =>
      have hword : c ∈ b.vocabulary.getD v [] := by
        rw [hv] at hc
        exact hc
      have hvocab : b.vocabulary = if config.replacement ≠ [] then [config.replacement] else [] := rfl
      rw [hvocab] at hword
      split at hword
      · cases v with
        | zero => exact hword
        | succ v => cases hword
      · cases hword
  -- The cuts of the chosen pairs, the one that ends last first.
  let chosen := (pairsOf config contents).filter fun x =>
    ∃ h ∈ hs, prescribedHint config none contents x = some h
  let cuts := chosen.reverse.map (cutOfPair config contents)
  have hmem : ∀ y ∈ cuts, ∃ x ∈ pairsOf config contents, y = cutOfPair config contents x := by
    intro y hy
    obtain ⟨x, hx, rfl⟩ := List.mem_map.1 hy
    exact ⟨x, (List.mem_filter.1 (List.mem_reverse.1 hx)).1, rfl⟩
  have hdesc : cuts.Pairwise fun x y => y.closer < x.closer := by
    rw [List.pairwise_map, List.pairwise_reverse]
    exact (Brackets.stackPairs_pairwise hsane.bracketsDiffer [] 0 contents).filter _
  have hcover (i : Nat) : (∃ e ∈ b.editsAt [], e.left ≤ i ∧ i < e.right) ↔
      ∃ x ∈ cuts, x.Takes i := by
    constructor
    · rintro ⟨e, he, hi⟩
      obtain ⟨p, hp, rfl⟩ := List.mem_map.1 he
      obtain ⟨h, hh, hp⟩ := List.mem_flatMap.1 (List.mem_filter.1 hp).1
      obtain ⟨x, hx, hpre⟩ := hpair h hh
      refine ⟨_, List.mem_map_of_mem (List.mem_reverse.2 (List.mem_filter.2 ⟨hx, ?_⟩)),
        (covers_iff hsane (pair_bounds hsane hx).1 hpre i).1 ⟨p, hp, hi⟩⟩
      exact decide_eq_true ⟨h, hh, hpre⟩
    · rintro ⟨y, hy, hi⟩
      obtain ⟨x, hx, rfl⟩ := List.mem_map.1 hy
      obtain ⟨hx, hpre⟩ := List.mem_filter.1 (List.mem_reverse.1 hx)
      obtain ⟨h, hh, hpre⟩ := of_decide_eq_true hpre
      obtain ⟨p, hp, hi⟩ := (covers_iff hsane (pair_bounds hsane hx).1 hpre i).2 hi
      refine ⟨b.editOf p, List.mem_map_of_mem (List.mem_filter.2 ⟨?_, ?_⟩), hi⟩
      · exact List.mem_flatMap.2 ⟨h, hh, hp⟩
      · exact decide_eq_true (hpath h hh p hp)
  rw [unmatched_editedFile htext, unmatched_eq_scan, Brackets.scan_congr fun i _ _ => hcover i]
  refine Brackets.scan_cuts hsane.bracketsDiffer (fun y hy => ?_) hdesc (fun y hy => ?_) _
  · obtain ⟨x, hx, rfl⟩ := hmem y hy
    exact cutOfPair_valid hsane hx
  · obtain ⟨x, hx, rfl⟩ := hmem y hy
    have hlen := (pair_bounds hsane hx).2
    exact .inl ⟨Nat.zero_le _, by simp only [cutOfPair]; omega⟩

/-- In every mode the hints are the pairs of brackets, and any of them keep the balance. -/
theorem balanced_hints (h : getConfig arg = some config) (contents : Bytes) :
    HintsArePairs config contents ∧ SubsetsKeepUnmatched config contents := by
  have hsane := config_sane h
  refine ⟨⟨pairsOf config contents, fun i j => Brackets.mem_stackPairs hsane.bracketsDiffer,
    Brackets.stackPairs_pairwise hsane.bracketsDiffer [] 0 contents, ?_⟩,
    subsets_keep_unmatched hsane contents⟩
  rw [generateHints_file, hints_eq_pairs hsane]

theorem balanced_hints_curly3 :
    HintsArePairs { search := .curlies, toDelete := .all, searchPrefix := some equalsPrefix }
        "a = \x7b \x7b \x7d = \x7b \x7d".toUTF8.data.toList ∧
      SubsetsKeepUnmatched
        { search := .curlies, toDelete := .all, searchPrefix := some equalsPrefix }
        "a = \x7b \x7b \x7d = \x7b \x7d".toUTF8.data.toList :=
  @balanced_hints _ "curly3" (by simp [getConfig, configs]) _

end BalancedPass

end Cvise
