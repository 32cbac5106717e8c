import Cvise.ApplyHints
import Cvise.SpanSweep

namespace Cvise
set_option autoImplicit true

variable {refs : List PatchRef} {r : PatchRef}

namespace PatchRef

structure Ranged (r : PatchRef) : Prop where
  left_some : r.patch.left.isSome
  right_some : r.patch.right.isSome
  left_le : r.patch.left.getD 0 ≤ r.patch.right.getD 0

instance (r : PatchRef) : Decidable r.Ranged :=
  decidable_of_iff (r.patch.left.isSome ∧ r.patch.right.isSome ∧
      r.patch.left.getD 0 ≤ r.patch.right.getD 0)
    ⟨fun ⟨a, b, c⟩ => ⟨a, b, c⟩, fun ⟨a, b, c⟩ => ⟨a, b, c⟩⟩

/-- The reference without the right end, which merging changes. -/
def stamp (r : PatchRef) : PatchRef := { r with patch := { r.patch with right := none } }

def span (r : PatchRef) : Span PatchRef :=
  ⟨r.patch.left.getD 0, r.patch.right.getD 0, r.stamp⟩

theorem Ranged.proper (h : r.Ranged) : r.span.Proper := h.left_le

theorem Ranged.replaceRight (h : r.Ranged) (hl : r.span.right ≤ right) :
    (r.replaceRight right).Ranged where
  left_some := h.left_some
  right_some := rfl
  left_le := h.left_le.trans hl

end PatchRef

def spansOf (refs : List PatchRef) : List (Span PatchRef) := refs.map PatchRef.span

theorem mergeStep_span {merged : List PatchRef} {cur : PatchRef}
    (hm : ∀ m ∈ merged, m.Ranged) (hc : cur.Ranged) :
    spansOf (mergeStep merged cur) = sweepStep (spansOf merged) cur.span ∧
      ∀ m ∈ mergeStep merged cur, m.Ranged := by
  cases merged with
  | nil => exact ⟨rfl, by simpa [mergeStep] using hc⟩
  | cons prev rest =>
    obtain ⟨hp, hrest⟩ := List.forall_mem_cons.1 hm
    obtain ⟨pl, hpl⟩ := Option.isSome_iff_exists.1 hp.left_some
    obtain ⟨pr, hpr⟩ := Option.isSome_iff_exists.1 hp.right_some
    obtain ⟨cl, hcl⟩ := Option.isSome_iff_exists.1 hc.left_some
    obtain ⟨cr, hcr⟩ := Option.isSome_iff_exists.1 hc.right_some
    have hps : prev.span = ⟨pl, pr, prev.stamp⟩ := by simp [PatchRef.span, hpl, hpr]
    have hcs : cur.span = ⟨cl, cr, cur.stamp⟩ := by simp [PatchRef.span, hcl, hcr]
    simp only [mergeStep, hpl, hpr, hcl, hcr, spansOf, List.map_cons, sweepStep, hps, hcs,
      Span.Absorbs]
    split
    · by_cases hr : cr > pr
      · rw [if_pos hr, List.map_cons]
        have hpos : (prev.replaceRight cr).Ranged :=
          hp.replaceRight (by simpa [hps] using hr.le)
        apply And.intro
        · simp [PatchRef.span, PatchRef.replaceRight, Span.extend, PatchRef.stamp, hpl,
            max_eq_right hr.le]
        · exact List.forall_mem_cons.2 ⟨hpos, hrest⟩
      · rw [if_neg hr, List.map_cons, hps]
        apply And.intro
        · simp [Span.extend, max_eq_left (not_lt.1 hr)]
        · exact hm
    · simp only [List.map_cons, hps, hcs]
      exact ⟨trivial, List.forall_mem_cons.2 ⟨hc, hm⟩⟩

theorem foldl_mergeStep_span (merged : List PatchRef)
    (hm : ∀ m ∈ merged, m.Ranged) (hr : ∀ r ∈ refs, r.Ranged) :
    spansOf (refs.foldl mergeStep merged) = (spansOf refs).foldl sweepStep (spansOf merged) ∧
      ∀ m ∈ refs.foldl mergeStep merged, m.Ranged := by
  induction refs generalizing merged with
  | nil => exact ⟨rfl, hm⟩
  | cons r rs ih =>
    obtain ⟨hr, hrs⟩ := List.forall_mem_cons.1 hr
    obtain ⟨hstep, hpos⟩ := mergeStep_span hm hr
    obtain ⟨hfold, hall⟩ := ih _ hpos hrs
    rw [List.foldl_cons, hfold, hstep]
    exact ⟨rfl, hall⟩

def sortedRefs (refs : List PatchRef) : List PatchRef :=
  refs.insertionSort fun r s => patchMergeSortingKey r ≤ patchMergeSortingKey s

theorem mem_sortedRefs : r ∈ sortedRefs refs ↔ r ∈ refs := List.mem_insertionSort _

theorem mergeOverlappingPatches_span (h : ∀ r ∈ refs, r.Ranged) :
    spansOf (mergeOverlappingPatches refs) = sweep (spansOf (sortedRefs refs)) ∧
      ∀ m ∈ mergeOverlappingPatches refs, m.Ranged := by
  have hs : ∀ r ∈ sortedRefs refs, r.Ranged := fun r hr => h r (mem_sortedRefs.1 hr)
  obtain ⟨hfold, hpos⟩ := foldl_mergeStep_span [] (by simp) hs
  apply And.intro
  · rw [← foldl_sweepStep, spansOf, mergeOverlappingPatches, List.map_reverse]
    exact congrArg List.reverse hfold
  · intro m hm
    exact hpos m (List.mem_reverse.1 hm)

theorem PatchRef.Ranged.key {r : PatchRef} (h : r.Ranged) :
    patchMergeSortingKey r = toLex (WithBot.some r.span.left,
      toLex (WithBot.some (OrderDual.toDual r.span.right), r.patch.value.isSome)) := by
  obtain ⟨l, hl⟩ := Option.isSome_iff_exists.1 h.left_some
  obtain ⟨rt, hrt⟩ := Option.isSome_iff_exists.1 h.right_some
  simp only [patchMergeSortingKey, PatchRef.span, hl, hrt, Option.getD_some, Option.map_some]
  rfl

theorem PatchRef.Ranged.key_le {r s : PatchRef} (hr : r.Ranged)
    (hs : s.Ranged) : patchMergeSortingKey r ≤ patchMergeSortingKey s ↔
      r.span.left < s.span.left ∨ r.span.left = s.span.left ∧
        (s.span.right < r.span.right ∨ s.span.right = r.span.right ∧
          r.patch.value.isSome ≤ s.patch.value.isSome) := by
  rw [hr.key, hs.key]
  simp only [Prod.Lex.toLex_le_toLex, WithBot.coe_lt_coe, WithBot.coe_inj, OrderDual.toDual_lt_toDual,
    OrderDual.toDual_inj]
  tauto

theorem sortedRefs_before (h : ∀ r ∈ refs, r.Ranged) :
    (spansOf (sortedRefs refs)).Pairwise Span.Before := by
  have hp : (sortedRefs refs).Pairwise fun r s => patchMergeSortingKey r ≤ patchMergeSortingKey s :=
    List.pairwise_insertionSort _ refs
  rw [spansOf, List.pairwise_map]
  apply hp.imp_of_mem
  intro r s hr hs hle
  rw [(h r (mem_sortedRefs.1 hr)).key_le (h s (mem_sortedRefs.1 hs))] at hle
  simp only [Span.Before]
  omega

theorem spansOf_sortedRefs (refs : List PatchRef) :
    SameRanges (spansOf (sortedRefs refs)) (spansOf refs) := by
  intro l r
  simp only [spansOf, List.mem_map, mem_sortedRefs]

theorem firstAt_spansOf (refs : List PatchRef) (i : Nat) :
    firstAt (spansOf refs) i = (refs.find? (·.span.left = i)).map PatchRef.span := by
  rw [firstAt, spansOf, List.find?_map]
  rfl

/-- The first of the sorted patches at a left end is least among all from there on. -/
theorem find?_sortedRefs (h : ∀ r ∈ refs, r.Ranged)
    (hf : (sortedRefs refs).find? (·.span.left = i) = some p) :
    p ∈ refs ∧ p.span.left = i ∧
      ∀ q ∈ refs, i ≤ q.span.left → patchMergeSortingKey p ≤ patchMergeSortingKey q := by
  obtain ⟨hpi, as, bs, hsort, has⟩ := List.find?_eq_some_iff_append.1 hf
  have hpi : p.span.left = i := of_decide_eq_true hpi
  have hp : p ∈ refs := mem_sortedRefs.1 (hsort ▸ by simp)
  apply And.intro hp
  apply And.intro hpi
  intro q hq hiq
  rcases hiq.lt_or_eq with hlt | heq
  · exact ((h p hp).key_le (h q hq)).2 (.inl (hpi ▸ hlt))
  · have hs : (sortedRefs refs).Pairwise fun r s =>
        patchMergeSortingKey r ≤ patchMergeSortingKey s := List.pairwise_insertionSort _ refs
    have hqs : q ∈ sortedRefs refs := mem_sortedRefs.2 hq
    rw [hsort, List.pairwise_append, List.pairwise_cons] at hs
    rw [hsort, List.mem_append, List.mem_cons] at hqs
    rcases hqs with hqs | rfl | hqs
    · have := has q hqs
      simp [heq] at this
    · exact le_rfl
    · exact hs.2.1.1 q hqs

/-- The patch starts a merged group and is the least one there, the first listed among equals. -/
def Leads (refs : List PatchRef) (r : PatchRef) : Prop :=
  LeftEnd (spansOf refs) r.span.left ∧
    (sortedRefs refs).find? (·.span.left = r.span.left) = some r

instance (refs : List PatchRef) (r : PatchRef) : Decidable (Leads refs r) :=
  inferInstanceAs (Decidable (_ ∧ _))

theorem Leads.mem (h : Leads refs r) : r ∈ refs := mem_sortedRefs.1 (List.mem_of_find?_eq_some h.2)

theorem spansOf_proper (h : ∀ r ∈ refs, r.Ranged) :
    ∀ x ∈ spansOf (sortedRefs refs), x.Proper := by
  intro x hx
  obtain ⟨r, hr, rfl⟩ := List.mem_map.1 hx
  exact (h r (mem_sortedRefs.1 hr)).proper

theorem mem_mergeOverlappingPatches (h : ∀ r ∈ refs, r.Ranged) (s : PatchRef) :
    (∃ m ∈ mergeOverlappingPatches refs, m.stamp = s) ↔ ∃ r, Leads refs r ∧ r.stamp = s := by
  have hm : ∀ i, (∃ rt, ⟨i, rt, s⟩ ∈ spansOf (mergeOverlappingPatches refs)) ↔
      ∃ r, Leads refs r ∧ r.span.left = i ∧ r.stamp = s := by
    intro i
    rw [(mergeOverlappingPatches_span h).1,
      mem_sweep (spansOf_proper h) (sortedRefs_before h), firstAt_spansOf,
      (spansOf_sortedRefs refs).leftEnd, Option.map_map, Option.map_eq_some_iff]
    constructor
    · intro ⟨hle, r, hf, hs⟩
      obtain ⟨_, hl, _⟩ := find?_sortedRefs h hf
      exact ⟨r, ⟨hl ▸ hle, hl ▸ hf⟩, hl, hs⟩
    · intro ⟨r, ⟨hle, hf⟩, hl, hs⟩
      exact ⟨hl ▸ hle, r, hl ▸ hf, hs⟩
  constructor
  · intro ⟨m, hmem, hs⟩
    subst hs
    have hin : m.span ∈ spansOf (mergeOverlappingPatches refs) := List.mem_map_of_mem hmem
    obtain ⟨r, hr, _, hrs⟩ := (hm m.span.left).1 ⟨m.span.right, hin⟩
    exact ⟨r, hr, hrs⟩
  · intro ⟨r, hr, hrs⟩
    obtain ⟨rt, hrt⟩ := (hm r.span.left).2 ⟨r, hr, rfl, hrs⟩
    obtain ⟨m, hmem, he⟩ := List.mem_map.1 hrt
    exact ⟨m, hmem, congrArg Span.val he⟩

theorem right_mergeOverlappingPatches (h : ∀ r ∈ refs, r.Ranged)
    (hn : ∀ r ∈ refs, r.span.right ≤ n) : ∀ m ∈ mergeOverlappingPatches refs, m.span.right ≤ n := by
  intro m hm
  have hs : ∀ x ∈ spansOf (sortedRefs refs), x.right ≤ n := by
    intro x hx
    obtain ⟨r, hr, rfl⟩ := List.mem_map.1 hx
    exact hn r (mem_sortedRefs.1 hr)
  apply right_sweep hs
  rw [← (mergeOverlappingPatches_span h).1]
  exact List.mem_map_of_mem hm

theorem mergeOverlappingPatches_separated (h : ∀ r ∈ refs, r.Ranged) :
    Separated (spansOf (mergeOverlappingPatches refs)) := by
  rw [(mergeOverlappingPatches_span h).1]
  exact sweep_separated (spansOf_proper h) (sortedRefs_before h)

end Cvise
