import Cvise.PositionShift
import Mathlib.Algebra.Order.BigOperators.Group.List
import Mathlib.Algebra.Order.Group.Nat

namespace Cvise
set_option autoImplicit true

variable {α β γ : Type} {f : α → List β} {h : γ → List β} {data : List β} {xs zs : List (Span α)}
  {ys : List (Span γ)}

/-- A pass over the elements of a flattened list goes block by block. -/
theorem flatMap_blocks {δ : Type} (c : Nat → List β) (k : Nat → Option β → List δ) (n : Nat) :
    (List.range ((List.range n).flatMap c).length).flatMap
        (fun i => k i ((List.range n).flatMap c)[i]?) =
      (List.range n).flatMap fun i => (List.range (c i).length).flatMap fun j =>
        k (((List.range i).flatMap c).length + j) (c i)[j]? := by
  induction n with
  | zero => rfl
  | succ n ih =>
    have hlast : (List.range (n + 1)).flatMap c = (List.range n).flatMap c ++ c n := by
      rw [List.range_succ, List.flatMap_append, List.flatMap_cons, List.flatMap_nil,
        List.append_nil]
    rw [hlast, List.length_append, List.range_add, List.flatMap_append, List.flatMap_map,
      List.range_succ, List.flatMap_append, ← ih, List.flatMap_cons, List.flatMap_nil,
      List.append_nil]
    congr 1
    · apply List.flatMap_congr
      intro i hi
      rw [List.getElem?_append_left (List.mem_range.1 hi)]
    · apply List.flatMap_congr
      intro j _
      rw [List.getElem?_append_right (Nat.le_add_right _ _), Nat.add_sub_cancel_left]

/-- The same span between other positions. -/
def Span.move (g : Nat → Nat) (x : Span α) : Span α := ⟨g x.left, g x.right, x.val⟩

/-- Position `i` lies within one of the spans, their ends included. -/
def Touches (xs : List (Span α)) (i : Nat) : Prop := ∃ x ∈ xs, x.left ≤ i ∧ i ≤ x.right

instance (xs : List (Span α)) (i : Nat) : Decidable (Touches xs i) :=
  inferInstanceAs (Decidable (∃ x ∈ xs, x.left ≤ i ∧ i ≤ x.right))

theorem Covered.touches (hc : Covered xs i) : Touches xs i := by
  obtain ⟨x, hx, hl, hr⟩ := hc
  exact ⟨x, hx, hl, hr.le⟩

theorem LeftEnd.touches (hp : ∀ x ∈ xs, x.Proper) (hl : LeftEnd xs i) : Touches xs i := by
  obtain ⟨⟨x, hx, rfl⟩, _⟩ := hl
  exact ⟨x, hx, le_rfl, hp x hx⟩

theorem groupText_untouched (hp : ∀ x ∈ xs, x.Proper) (hi : ¬ Touches xs i) :
    groupText f xs i = [] :=
  if_neg fun hl => hi (hl.touches hp)

theorem cell_untouched (hp : ∀ x ∈ xs, x.Proper) (hi : ¬ Touches xs i) :
    cell f data xs i = data[i]?.toList := by
  rw [cell, groupText_untouched hp hi, if_neg fun hc => hi hc.touches, List.nil_append]

theorem find?_congr {p q : α → Bool} {as : List α} (h : ∀ a ∈ as, p a = q a) :
    as.find? p = as.find? q := by
  induction as with
  | nil => rfl
  | cons a as ih =>
    obtain ⟨ha, has⟩ := List.forall_mem_cons.1 h
    rw [List.find?_cons, List.find?_cons, ha, ih has]

theorem exists_move {g : Nat → Nat} {P Q : Nat → Nat → Prop}
    (hPQ : ∀ x ∈ xs, P (g x.left) (g x.right) ↔ Q x.left x.right) :
    (∃ y ∈ xs.map (Span.move g), P y.left y.right) ↔ ∃ x ∈ xs, Q x.left x.right := by
  simp only [List.mem_map, exists_exists_and_eq_and, Span.move]
  exact exists_congr fun x => and_congr_right (hPQ x)

section move

variable {g : Nat → Nat} {i : Nat} (hg : ∀ x ∈ xs, (g i < g x.left ↔ i < x.left) ∧
  (g x.left < g i ↔ x.left < i) ∧ (g i < g x.right ↔ i < x.right) ∧ (g x.right < g i ↔ x.right < i))
include hg

theorem covered_move : Covered (xs.map (Span.move g)) (g i) ↔ Covered xs i :=
  exists_move (P := fun l r => l ≤ g i ∧ g i < r) (Q := fun l r => l ≤ i ∧ i < r) fun x hx => by
    have := hg x hx
    omega

theorem leftEnd_move : LeftEnd (xs.map (Span.move g)) (g i) ↔ LeftEnd xs i := by
  have hs : StartsAt (xs.map (Span.move g)) (g i) ↔ StartsAt xs i :=
    exists_move (P := fun l _ => l = g i) (Q := fun l _ => l = i) fun x hx => by
      have := hg x hx
      omega
  have hin : Interior (xs.map (Span.move g)) (g i) ↔ Interior xs i :=
    exists_move (P := fun l r => l < g i ∧ g i < r) (Q := fun l r => l < i ∧ i < r) fun x hx => by
      have := hg x hx
      omega
  have ho : OpensAt (xs.map (Span.move g)) (g i) ↔ OpensAt xs i :=
    exists_move (P := fun l r => l = g i ∧ g i < r) (Q := fun l r => l = i ∧ i < r) fun x hx => by
      have := hg x hx
      omega
  have hc : ClosesAt (xs.map (Span.move g)) (g i) ↔ ClosesAt xs i :=
    exists_move (P := fun l r => l < g i ∧ r = g i) (Q := fun l r => l < i ∧ r = i) fun x hx => by
      have := hg x hx
      omega
  rw [LeftEnd, LeftEnd, hs, hin, ho, hc]

/-- The text at a position does not change when the order of the positions stays. -/
theorem groupText_move : groupText f (xs.map (Span.move g)) (g i) = groupText f xs i := by
  have hfirst : firstAt (xs.map (Span.move g)) (g i) = (firstAt xs i).map (Span.move g) := by
    rw [firstAt, firstAt, List.find?_map]
    congr 1
    apply find?_congr
    intro x hx
    have := hg x hx
    have hiff : g x.left = g i ↔ x.left = i := by omega
    exact decide_eq_decide.2 hiff
  simp only [groupText, leftEnd_move hg, hfirst, Option.map_map]
  rfl

end move

/-- The first span at a position is not empty if one of them is not. -/
theorem firstAt_nonempty (hs : xs.Pairwise Span.Before) (ho : OpensAt xs i) :
    firstAt (xs.filter fun x => x.left < x.right) i = firstAt xs i := by
  obtain ⟨x, hx⟩ := firstAt_isSome ho.startsAt
  obtain ⟨y, hy, hyl, hyr⟩ := ho
  obtain ⟨hxi, as, bs, hsplit, has⟩ := List.find?_eq_some_iff_append.1 hx
  have hxl : x.left = i := of_decide_eq_true hxi
  have hxr : x.left < x.right := by
    rw [hsplit, List.mem_append, List.mem_cons] at hy
    rcases hy with hy | rfl | hy
    · have := has y hy
      simp [hyl] at this
    · omega
    · rw [hsplit, List.pairwise_append, List.pairwise_cons] at hs
      rcases hs.2.1.1 y hy with hlt | ⟨_, hle⟩ <;> omega
  rw [hx, firstAt, List.find?_filter]
  apply List.find?_eq_some_iff_append.2
  refine ⟨by simp [hxl, hxl ▸ hxr], as, bs, hsplit, fun a ha => ?_⟩
  have := has a ha
  simp only [Bool.not_eq_true', decide_eq_false_iff_not] at this
  simp [this]

theorem groupText_nonempty (hs : xs.Pairwise Span.Before) (i : Nat) :
    groupText f (xs.filter fun x => x.left < x.right) i =
      if OpensAt xs i then groupText f xs i else [] := by
  have hopens : OpensAt (xs.filter fun x => x.left < x.right) i ↔ OpensAt xs i := by
    constructor
    · rintro ⟨x, hx, hl, hr⟩
      exact ⟨x, List.mem_of_mem_filter hx, hl, hr⟩
    · rintro ⟨x, hx, hl, hr⟩
      exact ⟨x, List.mem_filter.2 ⟨hx, decide_eq_true (hl.trans_lt hr)⟩, hl, hr⟩
  have hstarts : StartsAt (xs.filter fun x => x.left < x.right) i ↔ OpensAt xs i := by
    rw [← hopens]
    constructor
    · rintro ⟨x, hx, hl⟩
      have hlt := of_decide_eq_true (List.mem_filter.1 hx).2
      exact ⟨x, hx, hl, hl ▸ hlt⟩
    · exact OpensAt.startsAt
  have hinterior : Interior (xs.filter fun x => x.left < x.right) i ↔ Interior xs i := by
    constructor
    · rintro ⟨x, hx, hl, hr⟩
      exact ⟨x, List.mem_of_mem_filter hx, hl, hr⟩
    · rintro ⟨x, hx, hl, hr⟩
      exact ⟨x, List.mem_filter.2 ⟨hx, decide_eq_true (hl.trans hr)⟩, hl, hr⟩
  by_cases ho : OpensAt xs i
  · have hleft : LeftEnd (xs.filter fun x => x.left < x.right) i ↔ LeftEnd xs i := by
      rw [LeftEnd, LeftEnd, hstarts, hinterior, hopens]
      simp only [ho, OpensAt.startsAt ho, true_or]
    have hfirst : firstAt (xs.filter fun x => x.left < x.right) i = firstAt xs i :=
      firstAt_nonempty hs ho
    rw [if_pos ho, groupText, groupText, hfirst]
    simp only [hleft]
  · have hleft : ¬ LeftEnd (xs.filter fun x => x.left < x.right) i := fun hl => ho (hstarts.1 hl.1)
    rw [if_neg ho, groupText, if_neg hleft]

/-- How much the positions before `q` become. -/
def newOffset (f : α → List β) (data : List β) (xs : List (Span α)) (q : Nat) : Nat :=
  ((List.range q).flatMap (cell f data xs)).length

theorem newOffset_succ (f : α → List β) (data : List β) (xs : List (Span α)) (q : Nat) :
    newOffset f data xs (q + 1) = newOffset f data xs q + (cell f data xs q).length := by
  rw [newOffset, List.range_succ, List.flatMap_append, List.length_append, List.flatMap_cons,
    List.flatMap_nil, List.append_nil, newOffset]

theorem newOffset_mono (hij : i ≤ j) : newOffset f data xs i ≤ newOffset f data xs j := by
  induction hij with
  | refl => exact le_rfl
  | step _ ih =>
    rw [Nat.succ_eq_add_one, newOffset_succ]
    omega

theorem newOffset_le (hq : q ≤ data.length) :
    newOffset f data xs q ≤ (rewriteSpans f data xs).length :=
  newOffset_mono (Nat.le_succ_of_le hq)

/-- No span of one list touches one of the other. -/
def Apart (xs : List (Span α)) (ys : List (Span γ)) : Prop :=
  ∀ x ∈ xs, ∀ y ∈ ys, x.right < y.left ∨ y.right < x.left

theorem Apart.untouched (ha : Apart xs ys) (hi : Touches ys i) : ¬ Touches xs i := by
  obtain ⟨y, hy, hyl, hyr⟩ := hi
  rintro ⟨x, hx, hxl, hxr⟩
  rcases ha x hx y hy with hlt | hlt <;> omega

section apart

variable (hpx : ∀ x ∈ xs, x.Proper) (ha : Apart xs ys)
include hpx ha

theorem newOffset_touched (hi : Touches ys i) (hn : i < data.length) :
    newOffset f data xs (i + 1) = newOffset f data xs i + 1 := by
  rw [newOffset_succ, cell_untouched hpx (ha.untouched hi), List.getElem?_eq_getElem hn]
  rfl

theorem newOffset_lt (hi : Touches ys i) (hij : i < j) (hj : j ≤ data.length) :
    newOffset f data xs i < newOffset f data xs j := by
  have hle : newOffset f data xs (i + 1) ≤ newOffset f data xs j := newOffset_mono hij
  rw [newOffset_touched hpx ha hi (hij.trans_le hj)] at hle
  exact hle

theorem newOffset_lt_iff (hi : Touches ys i) (hjn : j ≤ data.length) :
    newOffset f data xs i < newOffset f data xs j ↔ i < j := by
  constructor
  · intro hlt
    by_contra hle
    have hmono : newOffset f data xs j ≤ newOffset f data xs i :=
      newOffset_mono (Nat.le_of_not_lt hle)
    omega
  · intro hlt
    exact newOffset_lt hpx ha hi hlt hjn

variable (hpy : ∀ y ∈ ys, y.Proper) (hr : ∀ y ∈ ys, y.right ≤ data.length)
include hpy hr

/-- Positions that come from one that the later spans do not touch are not touched after moving. -/
theorem untouched_move (hi : ¬ Touches ys i) (hin : i ≤ data.length)
    (hk : newOffset f data xs i ≤ k) (hk' : i < data.length → k < newOffset f data xs (i + 1)) :
    ¬ Touches ((ys.filter fun y => y.left < y.right).map (Span.move (newOffset f data xs))) k := by
  rintro ⟨y', hy', hl, hr'⟩
  obtain ⟨y, hy, rfl⟩ := List.mem_map.1 hy'
  have hy := List.mem_of_mem_filter hy
  have hyp := hpy y hy
  have hyr := hr y hy
  simp only [Span.Proper] at hyp
  simp only [Span.move] at hl hr'
  rcases Nat.lt_or_ge i y.left with hlt | hge
  · have hmono : newOffset f data xs (i + 1) ≤ newOffset f data xs y.left := newOffset_mono hlt
    have := hk' (by omega)
    omega
  · have hlt : y.right < i := by
      by_contra hle
      exact hi ⟨y, hy, hge, Nat.le_of_not_lt hle⟩
    have := newOffset_lt (f := f) hpx ha ⟨y, hy, hyp, le_rfl⟩ hlt hin
    omega

theorem move_order (hi : Touches ys i) (hin : i ≤ data.length) :
    ∀ y ∈ ys.filter fun y => y.left < y.right,
      (newOffset f data xs i < newOffset f data xs y.left ↔ i < y.left) ∧
      (newOffset f data xs y.left < newOffset f data xs i ↔ y.left < i) ∧
      (newOffset f data xs i < newOffset f data xs y.right ↔ i < y.right) ∧
      (newOffset f data xs y.right < newOffset f data xs i ↔ y.right < i) := by
  intro y hy
  have hy := List.mem_of_mem_filter hy
  have hyp := hpy y hy
  have hyr := hr y hy
  have hl : Touches ys y.left := ⟨y, hy, le_rfl, hyp⟩
  have hrt : Touches ys y.right := ⟨y, hy, hyp, le_rfl⟩
  exact ⟨newOffset_lt_iff hpx ha hi (hyp.trans hyr), newOffset_lt_iff hpx ha hl hin,
    newOffset_lt_iff hpx ha hi hyr, newOffset_lt_iff hpx ha hrt hin⟩

end apart

/-- What becomes of the datum `x` at position `k`. -/
def passAt (h : γ → List β) (ys : List (Span γ)) (k : Nat) (x : Option β) : List β :=
  groupText h ys k ++ if Covered ys k then [] else x.toList

/-- The nonempty spans of a list, between the positions that another list has moved. -/
def movedSpans (f : α → List β) (data : List β) (xs : List (Span α)) (ys : List (Span γ)) :
    List (Span γ) :=
  (ys.filter fun y => y.left < y.right).map (Span.move (newOffset f data xs))

/-- What becomes of a position when first the spans `xs` are replaced and then the moved ones. -/
def twoSteps (f : α → List β) (h : γ → List β) (data : List β) (xs : List (Span α))
    (ys : List (Span γ)) (i : Nat) : List β :=
  if Touches ys i then
    groupText h (ys.filter fun y => y.left < y.right) i ++
      if Covered ys i then [] else data[i]?.toList
  else cell f data xs i

theorem movedSpans_proper (hpy : ∀ y ∈ ys, y.Proper) : ∀ y ∈ movedSpans f data xs ys, y.Proper := by
  intro y' hy'
  obtain ⟨y, hy, rfl⟩ := List.mem_map.1 hy'
  exact newOffset_mono (hpy y (List.mem_of_mem_filter hy))

theorem flatMap_all (as : List β) : (List.range as.length).flatMap (fun j => as[j]?.toList) = as := by
  have hall := flatMap_getElem? as 0 as.length
  rwa [← List.range_eq_range', Nat.zero_add, List.take_length, List.drop_zero] at hall

section apart

variable (hpx : ∀ x ∈ xs, x.Proper) (ha : Apart xs ys) (hpy : ∀ y ∈ ys, y.Proper)
  (hr : ∀ y ∈ ys, y.right ≤ data.length)
include hpx ha hpy hr

theorem passAt_touched (hi : Touches ys i) (hin : i ≤ data.length) (x : Option β) :
    passAt h (movedSpans f data xs ys) (newOffset f data xs i) x =
      groupText h (ys.filter fun y => y.left < y.right) i ++
        if Covered ys i then [] else x.toList := by
  have horder := move_order (f := f) hpx ha hpy hr hi hin
  have hcov : Covered (ys.filter fun y => y.left < y.right) i ↔ Covered ys i := by
    constructor
    · rintro ⟨y, hy, hyi⟩
      exact ⟨y, List.mem_of_mem_filter hy, hyi⟩
    · rintro ⟨y, hy, hyi⟩
      exact ⟨y, List.mem_filter.2 ⟨hy, decide_eq_true (hyi.1.trans_lt hyi.2)⟩, hyi⟩
  rw [passAt, movedSpans, groupText_move horder]
  simp only [covered_move horder, hcov]

theorem passAt_untouched (hi : ¬ Touches ys i) (hin : i ≤ data.length)
    (hk : newOffset f data xs i ≤ k) (hk' : i < data.length → k < newOffset f data xs (i + 1))
    (x : Option β) : passAt h (movedSpans f data xs ys) k x = x.toList := by
  have hun : ¬ Touches (movedSpans f data xs ys) k := untouched_move hpx ha hpy hr hi hin hk hk'
  rw [passAt, groupText_untouched (movedSpans_proper hpy) hun, if_neg fun hc => hun hc.touches,
    List.nil_append]

/-- One block of the second pass is what its position becomes. -/
theorem block_twoSteps (hn : i < data.length) :
    ((List.range (cell f data xs i).length).flatMap fun j =>
      passAt h (movedSpans f data xs ys) (newOffset f data xs i + j) (cell f data xs i)[j]?) =
        twoSteps f h data xs ys i := by
  by_cases hi : Touches ys i
  · have hcell : cell f data xs i = [data[i]] := by
      rw [cell_untouched hpx (ha.untouched hi), List.getElem?_eq_getElem hn]
      rfl
    rw [hcell, twoSteps, if_pos hi, List.getElem?_eq_getElem hn,
      ← passAt_touched (f := f) hpx ha hpy hr hi hn.le]
    simp
  · rw [twoSteps, if_neg hi]
    have hall : ∀ j ∈ List.range (cell f data xs i).length,
        passAt h (movedSpans f data xs ys) (newOffset f data xs i + j) (cell f data xs i)[j]? =
          (cell f data xs i)[j]?.toList := by
      intro j hj
      apply passAt_untouched hpx ha hpy hr hi hn.le (Nat.le_add_right _ _)
      intro _
      rw [newOffset_succ]
      exact Nat.add_lt_add_left (List.mem_range.1 hj) _
    rw [List.flatMap_congr hall, flatMap_all]

/-- The last block, with the end of the data behind it. -/
theorem last_twoSteps :
    ((List.range (cell f data xs data.length).length).flatMap fun j =>
      passAt h (movedSpans f data xs ys) (newOffset f data xs data.length + j)
        (cell f data xs data.length)[j]?) ++
      passAt h (movedSpans f data xs ys) (newOffset f data xs (data.length + 1)) none =
        twoSteps f h data xs ys data.length := by
  have hnone : data[data.length]? = none := List.getElem?_eq_none le_rfl
  by_cases hi : Touches ys data.length
  · have hcell : cell f data xs data.length = [] := by
      rw [cell_untouched hpx (ha.untouched hi), hnone]
      rfl
    rw [twoSteps, if_pos hi, hnone, newOffset_succ, hcell, List.length_nil, List.range_zero,
      List.flatMap_nil, List.nil_append, Nat.add_zero, passAt_touched hpx ha hpy hr hi le_rfl]
  · have hall : ∀ j ∈ List.range (cell f data xs data.length).length,
        passAt h (movedSpans f data xs ys) (newOffset f data xs data.length + j)
          (cell f data xs data.length)[j]? = (cell f data xs data.length)[j]?.toList := by
      intro j _
      exact passAt_untouched hpx ha hpy hr hi le_rfl (Nat.le_add_right _ _)
        (fun hlt => absurd hlt (lt_irrefl _)) _
    rw [twoSteps, if_neg hi, List.flatMap_congr hall, flatMap_all,
      passAt_untouched hpx ha hpy hr hi le_rfl (newOffset_mono (Nat.le_succ _))
        (fun hlt => absurd hlt (lt_irrefl _))]
    exact List.append_nil _

theorem rewriteSpans_twoSteps :
    rewriteSpans h (rewriteSpans f data xs) (movedSpans f data xs ys) =
      (List.range (data.length + 1)).flatMap (twoSteps f h data xs ys) := by
  have hblocks := flatMap_blocks (cell f data xs) (passAt h (movedSpans f data xs ys))
    (data.length + 1)
  have hcells : cell h (rewriteSpans f data xs) (movedSpans f data xs ys) =
      fun k => passAt h (movedSpans f data xs ys) k (rewriteSpans f data xs)[k]? := rfl
  have hend : cell h (rewriteSpans f data xs) (movedSpans f data xs ys)
      (rewriteSpans f data xs).length =
        passAt h (movedSpans f data xs ys) (newOffset f data xs (data.length + 1)) none := by
    have hnone : (rewriteSpans f data xs)[(rewriteSpans f data xs).length]? = none :=
      List.getElem?_eq_none le_rfl
    rw [← hnone]
    rfl
  rw [rewriteSpans, List.range_succ, List.flatMap_append, List.flatMap_cons, List.flatMap_nil,
    List.append_nil, hend, hcells]
  rw [rewriteSpans]
  rw [hblocks, List.range_succ, List.flatMap_append, List.flatMap_cons, List.flatMap_nil,
    List.append_nil, List.append_assoc, List.flatMap_append, List.flatMap_cons, List.flatMap_nil,
    List.append_nil]
  congr 1
  · apply List.flatMap_congr
    intro i hi
    exact block_twoSteps hpx ha hpy hr (List.mem_range.1 hi)
  · exact last_twoSteps hpx ha hpy hr

end apart

/-- Spans that do not touch a position do not matter there. -/
theorem cell_union {as : List (Span α)} (hp : ∀ x ∈ as, x.Proper)
    (hmem : ∀ z, z ∈ zs ↔ z ∈ as ∨ z ∈ xs) (hi : ¬ Touches as i)
    (hfirst : firstAt zs i = firstAt xs i) : cell f data zs i = cell f data xs i := by
  have hex : ∀ P : Span α → Prop, (∀ x ∈ as, P x → x.left ≤ i ∧ i ≤ x.right) →
      ((∃ z ∈ zs, P z) ↔ ∃ x ∈ xs, P x) := by
    intro P hP
    constructor
    · rintro ⟨z, hz, hPz⟩
      rcases (hmem z).1 hz with hz | hz
      · exact absurd ⟨z, hz, hP z hz hPz⟩ hi
      · exact ⟨z, hz, hPz⟩
    · rintro ⟨x, hx, hPx⟩
      exact ⟨x, (hmem x).2 (.inr hx), hPx⟩
  have hs : StartsAt zs i ↔ StartsAt xs i := hex _ fun x hx hl => by
    have := hp x hx
    simp only [Span.Proper] at this
    omega
  have hin : Interior zs i ↔ Interior xs i := hex _ fun x _ hl => by omega
  have ho : OpensAt zs i ↔ OpensAt xs i := hex _ fun x _ hl => by omega
  have hc : ClosesAt zs i ↔ ClosesAt xs i := hex _ fun x _ hl => by omega
  have hcov : Covered zs i ↔ Covered xs i := hex _ fun x _ hl => by omega
  have hleft : LeftEnd zs i ↔ LeftEnd xs i := by rw [LeftEnd, LeftEnd, hs, hin, ho, hc]
  simp only [cell, groupText, hleft, hcov, hfirst]

/-- Flattened lists whose parts are at most as long as those of others are equal only if all parts
are. -/
theorem flatMap_eq_iff {δ : Type} {c d : Nat → List δ} {is : List Nat}
    (hle : ∀ i ∈ is, (c i).length ≤ (d i).length)
    (heq : ∀ i ∈ is, (c i).length = (d i).length → c i = d i) :
    is.flatMap c = is.flatMap d ↔ ∀ i ∈ is, c i = d i := by
  constructor
  · intro hflat
    have hlen := congrArg List.length hflat
    rw [List.length_flatMap, List.length_flatMap] at hlen
    clear hflat
    induction is with
    | nil => simp
    | cons i is ih =>
      obtain ⟨hi, his⟩ := List.forall_mem_cons.1 hle
      obtain ⟨hei, heis⟩ := List.forall_mem_cons.1 heq
      have hsum : (is.map fun i => (c i).length).sum ≤ (is.map fun i => (d i).length).sum :=
        List.sum_le_sum his
      rw [List.map_cons, List.sum_cons, List.map_cons, List.sum_cons] at hlen
      exact List.forall_mem_cons.2 ⟨hei (by omega), ih his heis (by omega)⟩
  · exact fun h => List.flatMap_congr h

/-- The text of a group that only empty spans make up is what two passes lose. -/
theorem twoSteps_eq_iff (hpy : ∀ y ∈ ys, y.Proper) (hs : ys.Pairwise Span.Before) (n : Nat) :
    (List.range n).flatMap (twoSteps f h data xs ys) =
        ((List.range n).flatMap fun i =>
          if Touches ys i then cell h data ys i else cell f data xs i) ↔
      ∀ i < n, ¬ OpensAt ys i → groupText h ys i = [] := by
  have hcell : ∀ i, twoSteps f h data xs ys i =
      if Touches ys i then (if OpensAt ys i then groupText h ys i else []) ++
        (if Covered ys i then [] else data[i]?.toList) else cell f data xs i := by
    intro i
    rw [twoSteps, groupText_nonempty hs]
  have hshort : ∀ i, (twoSteps f h data xs ys i).length ≤
      (if Touches ys i then cell h data ys i else cell f data xs i).length := by
    intro i
    rw [hcell]
    split
    · rw [cell, List.length_append, List.length_append]
      split
      · exact le_rfl
      · exact Nat.add_le_add_right (Nat.zero_le _) _
    · exact le_rfl
  have hequal : ∀ i, twoSteps f h data xs ys i =
      (if Touches ys i then cell h data ys i else cell f data xs i) ↔
        (¬ OpensAt ys i → groupText h ys i = []) := by
    intro i
    rw [hcell]
    by_cases hi : Touches ys i
    · rw [if_pos hi, if_pos hi, cell, List.append_cancel_right_eq]
      by_cases ho : OpensAt ys i
      · simp [ho]
      · simp [ho, eq_comm]
    · rw [if_neg hi, if_neg hi]
      simp [groupText_untouched hpy hi]
  have hlength : ∀ i, (twoSteps f h data xs ys i).length =
      (if Touches ys i then cell h data ys i else cell f data xs i).length →
        twoSteps f h data xs ys i =
          if Touches ys i then cell h data ys i else cell f data xs i := by
    intro i hlen
    rw [hequal]
    intro ho
    by_cases hi : Touches ys i
    · rw [hcell, if_pos hi, if_pos hi, if_neg ho, cell, List.length_append,
        List.length_append, List.length_nil] at hlen
      exact List.eq_nil_of_length_eq_zero (by omega)
    · exact groupText_untouched hpy hi
  rw [flatMap_eq_iff (fun i _ => hshort i) (fun i _ => hlength i)]
  simp only [List.mem_range, hequal]

theorem Separated.cases {ms : List (Span α)} {m m' : Span α} (hs : Separated ms) (hm : m ∈ ms)
    (hm' : m' ∈ ms) : m = m' ∨ (m.right ≤ m'.left ∧ m.left < m'.left) ∨
      (m'.right ≤ m.left ∧ m'.left < m.left) := by
  have hpw := hs.2
  clear hs
  induction ms with
  | nil => cases hm
  | cons a as ih =>
    obtain ⟨ha, has⟩ := List.pairwise_cons.1 hpw
    rcases List.mem_cons.1 hm with hma | hmas
    · rcases List.mem_cons.1 hm' with hma' | hmas'
      · exact .inl (hma.trans hma'.symm)
      · exact .inr (.inl (hma ▸ ha m' hmas'))
    · rcases List.mem_cons.1 hm' with hma' | hmas'
      · exact .inr (.inr (hma' ▸ ha m hmas))
      · exact ih hmas hmas' has

theorem emptyGroups_iff (hp : ∀ x ∈ xs, x.Proper) (hs : xs.Pairwise Span.Before) :
    (∀ i, ¬ OpensAt xs i → groupText f xs i = []) ↔
      ∀ m ∈ sweep xs, m.left = m.right → f m.val = [] := by
  have hsep := sweep_separated hp hs
  constructor
  · intro hall m hm heq
    obtain ⟨hleft, hfirst⟩ := (mem_sweep hp hs m.left m.val).1 ⟨m.right, hm⟩
    obtain ⟨x, hx, hval⟩ := Option.map_eq_some_iff.1 hfirst
    have ho : ¬ OpensAt xs m.left := by
      rintro ⟨y, hy, hyl, hyr⟩
      obtain ⟨m', hm', hl, hr⟩ := (covered_sweep hp hs m.left).2 ⟨y, hy, hyl.le, hyr⟩
      rcases hsep.cases hm hm' with rfl | hlt | hlt <;> omega
    have htext := hall m.left ho
    rw [groupText, if_pos hleft, hx, Option.map_some, Option.getD_some, hval] at htext
    exact htext
  · intro hall i ho
    by_cases hleft : LeftEnd xs i
    · obtain ⟨x, hx⟩ := firstAt_isSome hleft.1
      obtain ⟨r, hm⟩ := (mem_sweep hp hs i x.val).2 ⟨hleft, by rw [hx]; rfl⟩
      have hle : i ≤ r := hsep.1 _ hm
      have heq : i = r := by
        by_contra hne
        obtain ⟨y, hy, hl, hr⟩ := (covered_sweep hp hs i).1 ⟨_, hm, le_rfl, lt_of_le_of_ne hle hne⟩
        rcases hl.lt_or_eq with hlt | heq
        · exact hleft.2.1 ⟨y, hy, hlt, hr⟩
        · exact ho ⟨y, hy, heq, hr⟩
      rw [groupText, if_pos hleft, hx, Option.map_some, Option.getD_some]
      exact hall ⟨i, r, x.val⟩ hm heq
    · rw [groupText, if_neg hleft]

end Cvise
