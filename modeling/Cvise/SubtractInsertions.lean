import Cvise.SpanComposition
import Cvise.SubtractedEdits

namespace Cvise
set_option autoImplicit true

variable {bundles : List HintBundle} {b : HintBundle} {paths : PathToPatches}
  {source dest final : TestCase} {a c edits : List Edit}

section sort

variable {α : Type} {r : α → α → Prop} [DecidableRel r]

theorem orderedInsert_least {x : α} {as : List α} (h : ∀ y ∈ as, r x y) :
    as.orderedInsert r x = x :: as := by
  cases as with
  | nil => rfl
  | cons y as => exact List.orderedInsert_cons_of_le r as (h y List.mem_cons_self)

variable [IsTrans α r]

theorem filter_orderedInsert (p : α → Bool) (x : α) {as : List α} (hs : as.Pairwise r) :
    (as.orderedInsert r x).filter p =
      if p x then (as.filter p).orderedInsert r x else as.filter p := by
  induction as with
  | nil => simp [List.filter_cons]
  | cons y as ih =>
    obtain ⟨hy, has⟩ := List.pairwise_cons.1 hs
    by_cases hxy : r x y
    · have hall : ∀ z ∈ (y :: as).filter p, r x z := by
        intro z hz
        rcases List.mem_cons.1 (List.mem_of_mem_filter hz) with rfl | hz
        · exact hxy
        · exact IsTrans.trans x y z hxy (hy z hz)
      rw [List.orderedInsert_cons_of_le r as hxy, List.filter_cons, orderedInsert_least hall]
    · rw [List.orderedInsert_of_not_le r as hxy, List.filter_cons, ih has, List.filter_cons]
      cases hpy : p y with
      | false => simp
      | true =>
        cases hpx : p x with
        | false => simp
        | true => simp [hxy]

variable [Std.Total r]

/-- Sorting is stable: what is left out does not change the order of the rest. -/
theorem filter_insertionSort (p : α → Bool) (as : List α) :
    (as.insertionSort r).filter p = (as.filter p).insertionSort r := by
  induction as with
  | nil => rfl
  | cons x as ih =>
    rw [List.insertionSort_cons, filter_orderedInsert p x (List.pairwise_insertionSort r as), ih,
      List.filter_cons]
    split <;> rfl

end sort

instance : IsTrans Edit fun a b => a.key ≤ b.key := ⟨fun _ _ _ => le_trans⟩

instance : Std.Total fun a b : Edit => a.key ≤ b.key := ⟨fun _ _ => le_total _ _⟩

theorem Edit.key_le {e e' : Edit} : e.key ≤ e'.key ↔ e.left < e'.left ∨ e.left = e'.left ∧
    (e'.right < e.right ∨ e'.right = e.right ∧ e.isReplacement ≤ e'.isReplacement) := by
  simp only [Edit.key, Prod.Lex.toLex_le_toLex, OrderDual.toDual_lt_toDual, OrderDual.toDual_inj]
  tauto

theorem mem_sortedSpans {x : Span Bytes} : x ∈ sortedSpans edits ↔ ∃ e ∈ edits, e.span = x := by
  simp only [sortedSpans, List.mem_map, List.mem_insertionSort]

theorem sortedSpans_before (edits : List Edit) : (sortedSpans edits).Pairwise Span.Before := by
  have hp : (edits.insertionSort fun a b => a.key ≤ b.key).Pairwise fun a b => a.key ≤ b.key :=
    List.pairwise_insertionSort _ edits
  rw [sortedSpans, List.pairwise_map]
  apply hp.imp
  intro e e' hle
  have := Edit.key_le.1 hle
  simp only [Span.Before, Edit.span]
  omega

theorem sortedSpans_proper (h : ∀ e ∈ edits, e.left ≤ e.right) :
    ∀ x ∈ sortedSpans edits, x.Proper := by
  intro x hx
  obtain ⟨e, he, rfl⟩ := mem_sortedSpans.1 hx
  exact h e he

theorem sortedSpans_filter (p : Nat → Nat → Bool) (edits : List Edit) :
    sortedSpans (edits.filter fun e => p e.left e.right) =
      (sortedSpans edits).filter fun x => p x.left x.right := by
  rw [sortedSpans, ← filter_insertionSort, sortedSpans, List.filter_map]
  rfl

theorem firstAt_sortedSpans (edits : List Edit) (i : Nat) :
    firstAt (sortedSpans edits) i = (sortedSpans (edits.filter fun e => e.left = i)).head? := by
  rw [sortedSpans_filter fun l _ => l = i, List.head?_filter]
  rfl

theorem firstAt_append (hi : ∀ e ∈ a, e.left ≠ i) :
    firstAt (sortedSpans (a ++ c)) i = firstAt (sortedSpans c) i ∧
      firstAt (sortedSpans (c ++ a)) i = firstAt (sortedSpans c) i := by
  have hnone : (a.filter fun e => e.left = i) = [] := by
    rw [List.filter_eq_nil_iff]
    intro e he
    simpa using hi e he
  simp only [firstAt_sortedSpans, List.filter_append, hnone, List.nil_append, List.append_nil,
    and_self]

/-- Moving the edits moves the sorted spans, when the order of the positions stays. -/
theorem sortedSpans_moved {g : Nat → Nat} (hg : ∀ e ∈ c, ∀ e' ∈ c,
    (g e.left < g e'.left ↔ e.left < e'.left) ∧ (g e.right < g e'.right ↔ e.right < e'.right)) :
    sortedSpans (c.map (Edit.moved g)) = (sortedSpans c).map (Span.move g) := by
  have hsort : (c.map (Edit.moved g)).insertionSort (fun a b => a.key ≤ b.key) =
      (c.insertionSort fun a b => a.key ≤ b.key).map (Edit.moved g) := by
    refine (List.map_insertionSort _ _ (Edit.moved g) c ?_).symm
    intro e he e' he'
    have h₁ := hg e he e' he'
    have h₂ := hg e' he' e he
    have hl : g e.left = g e'.left ↔ e.left = e'.left := by omega
    have hr : g e'.right = g e.right ↔ e'.right = e.right := by omega
    rw [Edit.key_le, Edit.key_le]
    simp only [Edit.moved, h₁.1, h₂.2, hl, hr]
  rw [sortedSpans, hsort, sortedSpans, List.map_map, List.map_map]
  rfl

theorem apart_sortedSpans
    (hapart : ∀ e ∈ a, ∀ e' ∈ c, e.right < e'.left ∨ e'.right < e.left) :
    Apart (sortedSpans a) (sortedSpans c) := by
  intro x hx y hy
  obtain ⟨e, he, rfl⟩ := mem_sortedSpans.1 hx
  obtain ⟨e', he', rfl⟩ := mem_sortedSpans.1 hy
  exact hapart e he e' he'

section apart

variable {data : Bytes} (ha : ∀ e ∈ a, e.left ≤ e.right) (hc : ∀ e ∈ c, e.left ≤ e.right ∧ e.right ≤ data.length)
  (hapart : ∀ e ∈ a, ∀ e' ∈ c, e.right < e'.left ∨ e'.right < e.left)
include ha hc hapart

theorem sortedSpans_movedSpans :
    sortedSpans ((c.map (Edit.moved (newOffset id data (sortedSpans a)))).filter
        fun e => e.left < e.right) =
      movedSpans id data (sortedSpans a) (sortedSpans c) := by
  have hp := sortedSpans_proper ha
  have hap := apart_sortedSpans hapart
  have htouch : ∀ e ∈ c, Touches (sortedSpans c) e.left ∧ Touches (sortedSpans c) e.right := by
    intro e he
    have hmem := mem_sortedSpans.2 ⟨e, he, rfl⟩
    exact ⟨⟨_, hmem, le_rfl, (hc e he).1⟩, ⟨_, hmem, (hc e he).1, le_rfl⟩⟩
  have hlt : ∀ e ∈ c, ∀ e' ∈ c,
      (newOffset id data (sortedSpans a) e.left < newOffset id data (sortedSpans a) e'.left ↔
        e.left < e'.left) ∧
      (newOffset id data (sortedSpans a) e.right < newOffset id data (sortedSpans a) e'.right ↔
        e.right < e'.right) := by
    intro e he e' he'
    have hle' := hc e' he'
    exact ⟨newOffset_lt_iff hp hap (htouch e he).1 (hle'.1.trans hle'.2),
      newOffset_lt_iff hp hap (htouch e he).2 hle'.2⟩
  rw [sortedSpans_filter fun l r => l < r, sortedSpans_moved hlt, List.filter_map, movedSpans]
  congr 1
  apply List.filter_congr
  intro x hx
  obtain ⟨e, he, rfl⟩ := mem_sortedSpans.1 hx
  have hle := hc e he
  exact decide_eq_decide.2
    (newOffset_lt_iff hp hap (htouch e he).1 hle.2)

theorem cell_append (i : Nat) : cell id data (sortedSpans (a ++ c)) i =
    if Touches (sortedSpans c) i then cell id data (sortedSpans c) i
    else cell id data (sortedSpans a) i := by
  have hpa := sortedSpans_proper ha
  have hpc := sortedSpans_proper fun e he => (hc e he).1
  have hmem : ∀ z, z ∈ sortedSpans (a ++ c) ↔ z ∈ sortedSpans a ∨ z ∈ sortedSpans c := by
    intro z
    simp only [mem_sortedSpans, List.mem_append, or_and_right, exists_or]
  split
  case isTrue hi =>
    have hun := (apart_sortedSpans hapart).untouched hi
    have hstart : ∀ e ∈ a, e.left ≠ i := by
      rintro e he rfl
      exact hun ⟨_, mem_sortedSpans.2 ⟨e, he, rfl⟩, le_rfl, ha e he⟩
    exact cell_union hpa hmem hun (firstAt_append hstart).1
  case isFalse hi =>
    have hstart : ∀ e ∈ c, e.left ≠ i := by
      rintro e he rfl
      exact hi ⟨_, mem_sortedSpans.2 ⟨e, he, rfl⟩, le_rfl, (hc e he).1⟩
    exact cell_union hpc (fun z => (hmem z).trans or_comm) hi (firstAt_append hstart).2

/-- Edits apart from earlier ones do the same after them, if no empty group of theirs has a text. -/
theorem editedFile_apart_iff :
    editedFile (editedFile data a) ((c.map (Edit.moved (newOffset id data (sortedSpans a)))).filter
        fun e => e.left < e.right) = editedFile data (a ++ c) ↔
      ∀ m ∈ sweep (sortedSpans c), m.left = m.right → m.val = [] := by
  have hpa := sortedSpans_proper ha
  have hpc := sortedSpans_proper fun e he => (hc e he).1
  have hright : ∀ y ∈ sortedSpans c, y.right ≤ data.length := by
    intro y hy
    obtain ⟨e, he, rfl⟩ := mem_sortedSpans.1 hy
    exact (hc e he).2
  have hbeyond : ∀ i, ¬ i < data.length + 1 → groupText id (sortedSpans c) i = [] := by
    intro i hi
    apply groupText_untouched hpc
    rintro ⟨y, hy, _, hr⟩
    have := hright y hy
    omega
  rw [editedFile, editedFile, sortedSpans_movedSpans ha hc hapart,
    rewriteSpans_twoSteps hpa (apart_sortedSpans hapart) hpc hright, editedFile, rewriteSpans,
    List.flatMap_congr fun i _ => cell_append ha hc hapart i,
    twoSteps_eq_iff hpc (sortedSpans_before c)]
  have hgroups := emptyGroups_iff (f := id) hpc (sortedSpans_before c)
  simp only [id_eq] at hgroups
  rw [← hgroups]
  constructor
  · intro hall i ho
    by_cases hi : i < data.length + 1
    · exact hall i hi ho
    · exact hbeyond i hi
  · exact fun hall i _ => hall i

end apart

/-- No patch of the bundles touches or overlaps one of `b` in the same file. -/
def ApartFrom (bundles : List HintBundle) (b : HintBundle) : Prop :=
  ∀ b' ∈ bundles, ∀ h' ∈ b'.hints, ∀ p' ∈ h'.patches, ∀ h ∈ b.hints, ∀ p ∈ h.patches,
    b'.pathOf p' = b.pathOf p →
      p'.right.getD 0 < p.left.getD 0 ∨ p.right.getD 0 < p'.left.getD 0

theorem mem_editsAt {e : Edit} : e ∈ b.editsAt path ↔
    ∃ h ∈ b.hints, ∃ p ∈ h.patches, b.pathOf p = .ok path ∧ b.editOf p = e := by
  simp only [HintBundle.editsAt, List.mem_map, List.mem_filter, List.mem_flatMap,
    decide_eq_true_eq]
  constructor
  · rintro ⟨p, ⟨⟨h, hh, hp⟩, hpath⟩, he⟩
    exact ⟨h, hh, p, hp, hpath, he⟩
  · rintro ⟨h, hh, p, hp, hpath, he⟩
    exact ⟨p, ⟨⟨h, hh, hp⟩, hpath⟩, he⟩

theorem ApartFrom.editsAt (h : ApartFrom bundles b) (path : RelPath) :
    ∀ e ∈ bundles.flatMap (·.editsAt path), ∀ e' ∈ b.editsAt path,
      e.right < e'.left ∨ e'.right < e.left := by
  intro e he e' he'
  obtain ⟨b', hb', he⟩ := List.mem_flatMap.1 he
  obtain ⟨h₁, hh₁, p₁, hp₁, hpath₁, rfl⟩ := mem_editsAt.1 he
  obtain ⟨h₂, hh₂, p₂, hp₂, hpath₂, rfl⟩ := mem_editsAt.1 he'
  exact h b' hb' h₁ hh₁ p₁ hp₁ h₂ hh₂ p₂ hp₂ (hpath₁.trans hpath₂.symm)

theorem sweepFrom_map {α γ : Type} (g : α → γ) (p : Span α) (xs : List (Span α)) :
    sweepFrom (p.map g) (xs.map (Span.map g)) = (sweepFrom p xs).map (Span.map g) := by
  induction xs generalizing p with
  | nil => rfl
  | cons x xs ih =>
    have habs : (p.map g).Absorbs (x.map g) ↔ p.Absorbs x := Iff.rfl
    rw [List.map_cons, sweepFrom, sweepFrom]
    simp only [habs]
    split
    · exact ih (p.extend x)
    · rw [List.map_cons, ih x]

theorem sweep_map {α γ : Type} (g : α → γ) (xs : List (Span α)) :
    sweep (xs.map (Span.map g)) = (sweep xs).map (Span.map g) := by
  cases xs with
  | nil => rfl
  | cons p xs => exact sweepFrom_map g p xs

/-- The empty groups of a file's edits are the empty patches that merging returns. -/
theorem sweep_editsAt (hb : b.Fits source) (hc : collectPatches [b] = .ok paths) (path : RelPath) :
    (∀ m ∈ sweep (sortedSpans (b.editsAt path)), m.left = m.right → m.val = []) ↔
      ∀ m ∈ mergeOverlappingPatches (paths.at path), m.span.left = m.span.right →
        insertedBytes [b] m = [] := by
  have hfits : ∀ c ∈ [b], c.Fits source := List.forall_mem_singleton.2 hb
  have hop := fits_operation hfits
  have hr : ∀ r ∈ paths.at path, r.Ranged := by
    intro r hr
    obtain ⟨_, _, _, _, hwithin⟩ := fits_ref hfits ((mem_at hc path).1 hr).1
    exact hwithin.positioned.toRanged
  have hedits : (paths.at path).map (resolve [b] source) = [b].flatMap (·.editsAt path) :=
    resolve_at hc hop path
  rw [List.flatMap_singleton] at hedits
  rw [← hedits, sortedSpans_resolve hr, sweep_map, ← (mergeOverlappingPatches_span hr).1]
  have htext : ∀ m ∈ mergeOverlappingPatches (paths.at path),
      insertedText [b] source m.stamp = insertedBytes [b] m := by
    intro m hm
    obtain ⟨r, hlead, hs⟩ := (mem_mergeOverlappingPatches hr m.stamp).1 ⟨m, hm, rfl⟩
    have hmop : m.patch.operation = none :=
      (congrArg (·.patch.operation) hs).symm.trans (hop r ((mem_at hc path).1 hlead.mem).1)
    exact insertedText_plain hmop
  simp only [spansOf, List.map_map, List.forall_mem_map]
  constructor
  · intro hall m hm heq
    rw [← htext m hm]
    exact hall m hm heq
  · intro hall m hm heq
    exact (htext m hm).trans (hall m hm heq)

theorem Edited.eq_iff {b' : HintBundle} {final' : TestCase} (h₁ : Edited bundles source dest)
    (h₂ : Edited [b'] dest final) (h₃ : Edited (bundles ++ [b]) source final') :
    final = final' ↔ ∀ path data, source.HasFile path data →
      editedFile (editedFile data (bundles.flatMap (·.editsAt path))) (b'.editsAt path) =
        editedFile data (bundles.flatMap (·.editsAt path) ++ b.editsAt path) := by
  have hedits : ∀ path, (bundles ++ [b]).flatMap (·.editsAt path) =
      bundles.flatMap (·.editsAt path) ++ b.editsAt path := by
    intro path
    rw [List.flatMap_append, List.flatMap_singleton]
  constructor
  · rintro rfl path data hfile
    have hout := h₂.hasFile.2 ⟨_, h₁.hasFile.2 ⟨data, hfile, rfl⟩, rfl⟩
    have hout' := h₃.hasFile.2 ⟨data, hfile, rfl⟩
    rw [List.flatMap_singleton] at hout
    rw [hedits] at hout'
    exact hasFile_unique hout hout'
  · intro hall
    exact (h₁.comp h₂ fun path data hfile => (hall path data hfile).trans
      (by rw [hedits])).unique h₃

/-- The ends of edits apart from those that are made go to where what is before them ends. -/
theorem newPosition_apart (path : RelPath) (data : Bytes) (hfits : ∀ c ∈ bundles, c.Fits source)
    (hc : collectPatches bundles = .ok paths) (hb : b.Fits source) (hapart : ApartFrom bundles b)
    (hf : source.HasFile path data) : ∀ e ∈ b.editsAt path, ∀ q, q = e.left ∨ q = e.right →
      newPosition bundles paths path q =
        newOffset id data (sortedSpans (bundles.flatMap (·.editsAt path))) q := by
  intro e he q hq
  obtain ⟨hle, hre⟩ := editsAt_within hb hf e he
  have htouch : Touches (sortedSpans (b.editsAt path)) q :=
    ⟨_, mem_sortedSpans.2 ⟨e, he, rfl⟩, by simp only [Edit.span]; omega,
      by simp only [Edit.span]; omega⟩
  have hun := (apart_sortedSpans (hapart.editsAt path)).untouched htouch
  have hp := sortedSpans_proper fun e he => (flatMap_editsAt_within hfits hf e he).1
  rw [newPosition_cells hfits hc hf (by omega) fun hcov => absurd hcov.touches hun,
    if_neg fun hcov => hun hcov.touches, groupText_untouched hp hun, newOffset]
  rfl

/-- Exactly when `subtract_hints` keeps the meaning of hints apart from those that are applied: no
empty patch that merging returns has a text to insert. -/
theorem subtractHints_apart_iff (source : TestCase) (bundles : List HintBundle) (b : HintBundle)
    (hfits : ∀ c ∈ b :: bundles, c.Fits source) (hapart : ApartFrom bundles b) :
    ∃ dest report b' paths final report₁ final' report₂,
      applyHints bundles source = .ok (some (some dest, report)) ∧
      subtractHints b bundles = .ok b' ∧ collectPatches [b] = .ok paths ∧
      applyHints [b'] dest = .ok (some (some final, report₁)) ∧
      applyHints (bundles ++ [b]) source = .ok (some (some final', report₂)) ∧
      (final = final' ↔ ∀ path, ∀ m ∈ mergeOverlappingPatches (paths.at path),
        m.span.left = m.span.right → insertedBytes [b] m = []) := by
  obtain ⟨hb, hfits⟩ := List.forall_mem_cons.1 hfits
  obtain ⟨paths, hc⟩ := fits_collect hfits
  obtain ⟨pathsB, hcB⟩ := fits_collect (List.forall_mem_singleton.2 hb)
  obtain ⟨dest, report, happly, hdest⟩ := applyHints_edited hfits
  have hpos := fun path data => newPosition_apart path data hfits hc hb hapart
  have hfits' := fits_moved hdest hb (newPosition bundles paths) fun path data hf e he => by
    obtain ⟨hle, hre⟩ := editsAt_within hb hf e he
    rw [hpos path data hf e he e.left (.inl rfl), hpos path data hf e he e.right (.inr rfl)]
    exact ⟨newOffset_mono hle, newOffset_le hre⟩
  obtain ⟨final, report₁, happly₁, hfinal⟩ :=
    applyHints_edited (List.forall_mem_singleton.2 hfits')
  have hall : ∀ c ∈ bundles ++ [b], c.Fits source := by
    intro c hc
    rcases List.mem_append.1 hc with hc | hc
    · exact hfits c hc
    · exact (List.mem_singleton.1 hc) ▸ hb
  obtain ⟨final', report₂, happly₂, hfinal'⟩ := applyHints_edited hall
  have hwithin : ∀ h ∈ b.hints, ∀ p ∈ h.patches, ∃ n, p.Within b n := by
    intro h hh p hp
    obtain ⟨_, data, _, _, hw⟩ := hb h hh p hp
    exact ⟨data.length, hw⟩
  have hfile : ∀ path data, source.HasFile path data →
      (editedFile (editedFile data (bundles.flatMap (·.editsAt path)))
          (HintBundle.editsAt
            { b with hints := b.hints.map (movedHint b (newPosition bundles paths)) } path) =
        editedFile data (bundles.flatMap (·.editsAt path) ++ b.editsAt path) ↔
      ∀ m ∈ mergeOverlappingPatches (pathsB.at path), m.span.left = m.span.right →
        insertedBytes [b] m = []) := by
    intro path data hf
    have hmap : (b.editsAt path).map (Edit.moved (newPosition bundles paths path)) =
        (b.editsAt path).map (Edit.moved
          (newOffset id data (sortedSpans (bundles.flatMap (·.editsAt path))))) := by
      apply List.map_congr_left
      intro e he
      rw [Edit.moved, Edit.moved, hpos path data hf e he e.left (.inl rfl),
        hpos path data hf e he e.right (.inr rfl)]
    rw [editsAt_moved _ hwithin, hmap,
      editedFile_apart_iff (fun e he => (flatMap_editsAt_within hfits hf e he).1)
        (editsAt_within hb hf) (hapart.editsAt path), sweep_editsAt hb hcB]
  refine ⟨dest, report, _, pathsB, final, report₁, final', report₂, happly,
    subtractHints_fits hfits hc hb, hcB, happly₁, happly₂, ?_⟩
  rw [hdest.eq_iff hfinal hfinal']
  constructor
  · intro heq path
    by_cases hf : ∃ data, source.HasFile path data
    · obtain ⟨data, hf⟩ := hf
      exact (hfile path data hf).1 (heq path data hf)
    · have hnone : b.editsAt path = [] := by
        apply List.eq_nil_iff_forall_not_mem.2
        intro e he
        obtain ⟨h, hh, p, hp, hpath, _⟩ := mem_editsAt.1 he
        obtain ⟨path', data, hpath', hf', _⟩ := hb h hh p hp
        cases hpath.symm.trans hpath'
        exact hf ⟨data, hf'⟩
      rw [← sweep_editsAt hb hcB, hnone]
      exact fun m hm => absurd hm List.not_mem_nil
  · intro hempty path data hf
    exact (hfile path data hf).2 (hempty path)

def insertingBundle : HintBundle where
  hints := [{ patches := [{ left := some 2, right := some 2, value := some 0 }] }]
  vocabulary := [[0x58]]

def trimmingBundle : HintBundle where
  hints := [{ patches := [{ left := some 0, right := some 1 }] }]

theorem fits_trimmed : ∀ c ∈ [insertingBundle, trimmingBundle], c.Fits (.file [1, 2, 3, 4]) := by
  have hall : ∀ c ∈ [insertingBundle, trimmingBundle], ∀ h ∈ c.hints, ∀ p ∈ h.patches,
      p.path = none ∧ p.Within c 4 := by decide
  intro c hc
  exact fits_file (hall c hc)

theorem apart_trimmed : ApartFrom [trimmingBundle] insertingBundle := by
  unfold ApartFrom
  decide

theorem subtractHints_apart_iff_trimmed : ∃ dest report b' paths final report₁ final' report₂,
    applyHints [trimmingBundle] (.file [1, 2, 3, 4]) = .ok (some (some dest, report)) ∧
    subtractHints insertingBundle [trimmingBundle] = .ok b' ∧
    collectPatches [insertingBundle] = .ok paths ∧
    applyHints [b'] dest = .ok (some (some final, report₁)) ∧
    applyHints ([trimmingBundle] ++ [insertingBundle]) (.file [1, 2, 3, 4]) =
      .ok (some (some final', report₂)) ∧
    (final = final' ↔ ∀ path, ∀ m ∈ mergeOverlappingPatches (paths.at path),
      m.span.left = m.span.right → insertedBytes [insertingBundle] m = []) :=
  subtractHints_apart_iff (.file [1, 2, 3, 4]) [trimmingBundle] insertingBundle fits_trimmed
    apart_trimmed

/-- The insertion is dropped as if it were a deletion of nothing. -/
theorem insertion_dropped : ¬ ∀ (source : TestCase) (bundles : List HintBundle) (b b' : HintBundle)
    (dest final final' : TestCase) (report report₁ report₂ : HintApplicationReport),
    (∀ c ∈ b :: bundles, c.Fits source) → ApartFrom bundles b →
      applyHints bundles source = .ok (some (some dest, report)) →
      subtractHints b bundles = .ok b' →
      applyHints [b'] dest = .ok (some (some final, report₁)) →
      applyHints (bundles ++ [b]) source = .ok (some (some final', report₂)) → final = final' := by
  intro hclaim
  have happly : applyHints [trimmingBundle] (.file [1, 2, 3, 4]) =
      .ok (some (some (.file [2, 3, 4]), ⟨[([], -1)], [[]]⟩)) := by decide
  have hsubtract : subtractHints insertingBundle [trimmingBundle] =
      .ok { insertingBundle with hints := [{}] } := by decide
  have happly₁ : applyHints [{ insertingBundle with hints := [{}] }] (.file [2, 3, 4]) =
      .ok (some (some (.file [2, 3, 4]), ⟨[], [[]]⟩)) := by decide
  have happly₂ : applyHints ([trimmingBundle] ++ [insertingBundle]) (.file [1, 2, 3, 4]) =
      .ok (some (some (.file [2, 0x58, 3, 4]), ⟨[([], 0)], [[]]⟩)) := by decide
  have heq := hclaim _ _ _ _ _ _ _ _ _ _ fits_trimmed apart_trimmed happly hsubtract happly₁ happly₂
  revert heq
  decide

end Cvise
