import Cvise.SpanSweep
import Mathlib.Algebra.GroupWithZero.Nat

namespace Cvise
set_option autoImplicit true

variable {α β : Type} {f : α → List β} {data : List β} {xs ms : List (Span α)}

/-- Where position `q` goes, by one pass over separate spans that adds up how much each shifts what
follows it. A position within a span goes to where the span starts. -/
def shifted (f : α → List β) (q : Nat) (delta : Int) : List (Span α) → Int
  | [] => q + delta
  | m :: ms =>
    if m.right ≤ q then shifted f q (delta + ((f m.val).length - ((m.right : Int) - m.left))) ms
    else if m.left < q then q + delta - ((q : Int) - m.left)
    else q + delta

/-- The text that is put before position `q` when the datum there stays. -/
def textAt (f : α → List β) (ms : List (Span α)) (q : Nat) : List β :=
  if Covered ms q then [] else ((firstAt ms q).map fun x => f x.val).getD []

theorem textAt_before (h : ∀ m ∈ ms, q ≤ m.left ∧ q < m.right) : textAt f ms q = [] := by
  by_cases hc : Covered ms q
  · rw [textAt, if_pos hc]
  · have hn : firstAt ms q = none := by
      apply firstAt_eq_none
      intro m hm
      obtain ⟨hl, hr⟩ := h m hm
      rcases hl.lt_or_eq with hlt | heq
      · exact hlt
      · exact absurd ⟨m, hm, heq.ge, hr⟩ hc
    rw [textAt, if_neg hc, hn]
    rfl

theorem shifted_before (h : ∀ m ∈ ms, q ≤ m.left ∧ q < m.right) :
    shifted f q delta ms = q + delta := by
  cases ms with
  | nil => rfl
  | cons m ms =>
    obtain ⟨hl, hr⟩ := h m List.mem_cons_self
    rw [shifted, if_neg (by omega), if_neg (by omega)]

theorem textAt_after {m : Span α} (hl : m.left < q) (hr : m.right ≤ q) :
    textAt f (m :: ms) q = textAt f ms q := by
  have hc : Covered (m :: ms) q ↔ Covered ms q := by
    rw [covered_cons, or_iff_right (by omega)]
  simp only [textAt, hc, firstAt_cons, if_neg hl.ne]

theorem textAt_inside {m : Span α} (hl : m.left ≤ q) (hr : q < m.right) :
    textAt f (m :: ms) q = [] := by
  rw [textAt, if_pos ((covered_cons m ms q).2 (.inl ⟨hl, hr⟩))]

/-- A position goes behind all that the earlier positions become, and behind the text that is put
there. Within a span this takes that the span has no text. -/
theorem shifted_eq (hs : Separated ms) (hl : ∀ m ∈ ms, start ≤ m.left) (hst : start ≤ q)
    (hq : q ≤ data.length) (hin : ∀ m ∈ ms, m.left < q → q < m.right → f m.val = [])
    (delta : Int) :
    shifted f q delta ms = start + delta +
      ((List.range' start (q - start)).flatMap (spliceCell f data ms)).length +
      (textAt f ms q).length := by
  induction ms generalizing start delta with
  | nil =>
    rw [shifted, flatMap_spliceCell_before (by simp) hst, textAt_before (by simp)]
    simp only [List.length_drop, List.length_take, List.length_nil]
    omega
  | cons m ms ih =>
    obtain ⟨hm, hms⟩ := List.forall_mem_cons.1 hs.1
    obtain ⟨hb, hpw⟩ := List.pairwise_cons.1 hs.2
    obtain ⟨hml, _⟩ := List.forall_mem_cons.1 hl
    obtain ⟨him, hims⟩ := List.forall_mem_cons.1 hin
    simp only [Span.Proper] at hm
    have hlefts : ∀ x ∈ m :: ms, m.left ≤ x.left :=
      List.forall_mem_cons.2 ⟨le_rfl, fun x hx => (hb x hx).2.le⟩
    rcases Nat.lt_or_ge m.left q with hlt | hge
    · have hlen : ((data.take m.left).drop start).length = m.left - start := by
        simp only [List.length_drop, List.length_take]
        omega
      rw [range'_split hml hlt.le, List.flatMap_append, flatMap_spliceCell_before hlefts hml,
        List.length_append, hlen]
      by_cases hr : m.right ≤ q
      · rw [shifted, if_pos hr, ih ⟨hms, hpw⟩ (fun x hx => (hb x hx).1) hr hims,
          flatMap_spliceCell_head hm hb hlt hr, textAt_after hlt hr, List.length_append]
        omega
      · have hinside : (List.range' m.left (q - m.left)).flatMap (spliceCell f data (m :: ms)) = [] := by
          rw [List.flatMap_eq_nil_iff]
          intro i hi
          rw [List.mem_range'_1] at hi
          rcases hi.1.lt_or_eq with hil | rfl
          · exact spliceCell_inside hil (by omega) fun x hx => (hb x hx).1
          · have hc : Covered (m :: ms) m.left := (covered_cons m ms _).2 (.inl ⟨le_rfl, by omega⟩)
            rw [spliceCell, firstAt_cons, if_pos rfl, if_pos hc]
            simpa using him hlt (by omega)
        rw [shifted, if_neg hr, if_pos hlt, hinside, textAt_inside hlt.le (by omega)]
        simp only [List.length_nil]
        omega
    · have hrest : ∀ x ∈ ms, q ≤ x.left ∧ q < x.right := by
        intro x hx
        have := hb x hx
        have := hms x hx
        simp only [Span.Proper] at this
        omega
      have hlen : ((List.range' start (q - start)).flatMap (spliceCell f data (m :: ms))).length =
          q - start := by
        rw [flatMap_spliceCell_before (fun x hx => hge.trans (hlefts x hx)) hst]
        simp only [List.length_drop, List.length_take]
        omega
      rw [hlen]
      by_cases hr : m.right ≤ q
      · have hmq : m.left = q := by omega
        have hc : ¬ Covered (m :: ms) q := by
          rw [covered_cons]
          rintro (h | ⟨x, hx, hxl, _⟩)
          · omega
          · have := (hb x hx).2
            omega
        rw [shifted, if_pos hr, shifted_before hrest, textAt, if_neg hc, firstAt_cons, if_pos hmq]
        simp only [Option.map_some, Option.getD_some]
        omega
      · rw [shifted, if_neg hr, if_neg (by omega), textAt_before]
        · simp only [List.length_nil]
          omega
        · exact List.forall_mem_cons.2 ⟨⟨hge, by omega⟩, hrest⟩

theorem shifted_sweep (hp : ∀ x ∈ xs, x.Proper) (hs : xs.Pairwise Span.Before)
    (hq : q ≤ data.length) (hin : Covered xs q → ∀ x ∈ xs, f x.val = []) :
    shifted f q 0 (sweep xs) = ((List.range q).flatMap (cell f data xs)).length +
      (if Covered xs q then [] else groupText f xs q).length := by
  have hsep := sweep_separated hp hs
  have htext : ∀ m ∈ sweep xs, m.left < q → q < m.right → f m.val = [] := by
    intro m hm hl hr
    obtain ⟨_, hfirst⟩ := (mem_sweep hp hs m.left m.val).1 ⟨m.right, hm⟩
    obtain ⟨x, hx, hval⟩ := Option.map_eq_some_iff.1 hfirst
    rw [← hval]
    exact hin ((covered_sweep hp hs q).1 ⟨m, hm, hl.le, hr⟩) x (List.mem_of_find?_eq_some hx)
  have hcells : spliceCell f data (sweep xs) = cell f data xs :=
    funext fun i => spliceCell_sweep hp hs i
  rw [shifted_eq hsep (fun m _ => Nat.zero_le _) (Nat.zero_le q) hq htext, Nat.sub_zero,
    ← List.range_eq_range', textAt, text_sweep hp hs, hcells]
  simp only [covered_sweep hp hs]
  omega

/-- What the spans that end at or before `q` insert in total. -/
def insertedUpTo (f : α → List β) (q : Nat) (ms : List (Span α)) : Nat :=
  ((ms.filter (·.right ≤ q)).map fun m => (f m.val).length).sum

/-- Two passes over the same ranges differ by what they insert. -/
theorem shifted_sub {γ : Type} {g : α → List γ} (hs : Separated ms) (delta delta' : Int) :
    shifted f q delta ms - delta - insertedUpTo f q ms =
      shifted g q delta' ms - delta' - insertedUpTo g q ms := by
  induction ms generalizing delta delta' with
  | nil =>
    simp only [shifted, insertedUpTo, List.filter_nil, List.map_nil, List.sum_nil]
    omega
  | cons m ms ih =>
    obtain ⟨hm, hms⟩ := List.forall_mem_cons.1 hs.1
    obtain ⟨hb, hpw⟩ := List.pairwise_cons.1 hs.2
    by_cases hr : m.right ≤ q
    · have hcons : ∀ {δ : Type} (h : α → List δ),
          insertedUpTo h q (m :: ms) = (h m.val).length + insertedUpTo h q ms := by
        intro δ h
        rw [insertedUpTo, List.filter_cons_of_pos (by simpa using hr), List.map_cons, List.sum_cons]
        rfl
      have hrest := ih ⟨hms, hpw⟩ (delta + ((f m.val).length - ((m.right : Int) - m.left)))
        (delta' + ((g m.val).length - ((m.right : Int) - m.left)))
      rw [shifted, if_pos hr, shifted, if_pos hr, hcons, hcons]
      omega
    · have hnil : ∀ {δ : Type} (h : α → List δ), insertedUpTo h q (m :: ms) = 0 := by
        intro δ h
        have hnone : (m :: ms).filter (·.right ≤ q) = [] := by
          rw [List.filter_eq_nil_iff]
          intro x hx
          rw [decide_eq_true_eq]
          rcases List.mem_cons.1 hx with rfl | hx
          · exact hr
          · have hle := (hb x hx).1.trans (hms x hx)
            omega
        rw [insertedUpTo, hnone]
        rfl
      rw [hnil, hnil, shifted, if_neg hr, shifted, if_neg hr]
      split <;> omega

/-- A datum that stays comes behind what the earlier positions become and the text put before it. -/
theorem rewriteSpans_at {x : β} (hx : data[q]? = some x) (hc : ¬ Covered xs q) :
    ∃ after, rewriteSpans f data xs =
      (List.range q).flatMap (cell f data xs) ++ groupText f xs q ++ x :: after := by
  have hq : q < data.length := (List.getElem?_eq_some_iff.1 hx).1
  have hsplit := range'_split (Nat.zero_le q) (Nat.le_succ_of_le hq.le)
  have hcons : List.range' q (data.length + 1 - q) = q :: List.range' (q + 1) (data.length - q) := by
    rw [← List.range'_succ, show data.length - q + 1 = data.length + 1 - q by omega]
  apply Exists.intro ((List.range' (q + 1) (data.length - q)).flatMap (cell f data xs))
  rw [rewriteSpans, List.range_eq_range', List.range_eq_range']
  rw [Nat.sub_zero, Nat.sub_zero, Nat.succ_eq_add_one] at hsplit
  rw [hsplit, List.flatMap_append, hcons, List.flatMap_cons]
  simp only [cell, if_neg hc, hx, Option.toList_some, List.append_assoc, List.singleton_append]

/-- The data at the positions that `keep` selects. -/
def keptAt (keep : Nat → Bool) (data : List β) : List β :=
  (data.zipIdx.filter fun x => keep x.2).map Prod.fst

/-- How many positions before `q` are selected. -/
def rank (keep : Nat → Bool) (q : Nat) : Nat := ((List.range q).filter keep).length

variable {keep : Nat → Bool}

theorem rank_succ (keep : Nat → Bool) (q : Nat) :
    rank keep (q + 1) = rank keep q + if keep q then 1 else 0 := by
  rw [rank, List.range_succ, List.filter_append, List.length_append, rank]
  cases h : keep q with
  | false => simp [h]
  | true => simp [h]

theorem rank_mono (keep : Nat → Bool) (h : i ≤ j) : rank keep i ≤ rank keep j := by
  induction h with
  | refl => exact le_rfl
  | step _ ih =>
    rw [Nat.succ_eq_add_one, rank_succ]
    omega

theorem rank_lt_rank (hi : keep i = true) (h : i < j) : rank keep i < rank keep j := by
  have hle := rank_mono keep h
  rw [Nat.succ_eq_add_one, rank_succ, if_pos hi] at hle
  omega

theorem rank_le_rank_iff (hi : keep i = true) : rank keep j ≤ rank keep i ↔ j ≤ i := by
  constructor
  · intro h
    by_contra hlt
    have := rank_lt_rank hi (Nat.lt_of_not_le hlt)
    omega
  · exact rank_mono keep

theorem rank_lt_rank_iff (hi : keep i = true) : rank keep i < rank keep j ↔ i < j := by
  constructor
  · intro h
    by_contra hle
    have := rank_mono keep (Nat.le_of_not_lt hle)
    omega
  · exact rank_lt_rank hi

theorem filter_zipIdx_keptAt (keep keep' : Nat → Bool) (data : List β) (k : Nat) :
    (((((data.zipIdx k).filter fun x => keep x.2).map Prod.fst).zipIdx (rank keep k)).filter
        fun x => keep' x.2).map Prod.fst =
      ((data.zipIdx k).filter fun x => keep x.2 && keep' (rank keep x.2)).map Prod.fst := by
  induction data generalizing k with
  | nil => rfl
  | cons x data ih =>
    have hrest := ih (k + 1)
    rw [rank_succ] at hrest
    rw [List.zipIdx_cons, List.filter_cons, List.filter_cons]
    cases hk : keep k with
    | false =>
      simp only [hk, Bool.false_eq_true, if_false, Nat.add_zero, Bool.false_and] at hrest ⊢
      exact hrest
    | true =>
      simp only [hk, if_true, Bool.true_and, List.map_cons, List.zipIdx_cons, List.filter_cons]
        at hrest ⊢
      split
      · rw [List.map_cons, List.map_cons, hrest]
      · exact hrest

theorem keptAt_keptAt (keep keep' : Nat → Bool) (data : List β) :
    keptAt keep' (keptAt keep data) = keptAt (fun i => keep i && keep' (rank keep i)) data :=
  filter_zipIdx_keptAt keep keep' data 0

theorem length_filter_zipIdx (keep : Nat → Bool) (data : List β) (k : Nat) :
    rank keep k + ((data.zipIdx k).filter fun x => keep x.2).length = rank keep (k + data.length) := by
  induction data generalizing k with
  | nil => rfl
  | cons x data ih =>
    have hrest := ih (k + 1)
    rw [rank_succ] at hrest
    rw [List.length_cons, ← Nat.add_assoc, Nat.add_right_comm, ← hrest, List.zipIdx_cons,
      List.filter_cons]
    cases hk : keep k with
    | false => simp
    | true =>
      simp only [if_true, List.length_cons]
      omega

theorem length_keptAt (keep : Nat → Bool) (data : List β) :
    (keptAt keep data).length = rank keep data.length := by
  have hlen := length_filter_zipIdx keep data 0
  rw [Nat.zero_add] at hlen
  rw [keptAt, List.length_map, ← hlen]
  exact (Nat.zero_add _).symm

theorem flatMap_keptAt (keep : Nat → Bool) (data : List β) (k : Nat) :
    (List.range' k (data.length + 1)).flatMap
        (fun i => if keep i then data[i - k]?.toList else []) =
      ((data.zipIdx k).filter fun x => keep x.2).map Prod.fst := by
  induction data generalizing k with
  | nil => simp
  | cons x data ih =>
    have hrest : (List.range' (k + 1) (data.length + 1)).flatMap
        (fun i => if keep i then (x :: data)[i - k]?.toList else []) =
        (List.range' (k + 1) (data.length + 1)).flatMap
          (fun i => if keep i then data[i - (k + 1)]?.toList else []) := by
      apply List.flatMap_congr
      intro i hi
      rw [List.mem_range'_1] at hi
      rw [show i - k = (i - (k + 1)) + 1 by omega, List.getElem?_cons_succ]
    rw [List.length_cons, List.range'_succ, List.flatMap_cons, List.zipIdx_cons, List.filter_cons,
      Nat.sub_self, hrest, ih]
    cases hk : keep k with
    | false => simp
    | true => simp

section deletions

variable (hf : ∀ x ∈ xs, f x.val = [])
include hf

theorem groupText_deletions (i : Nat) : groupText f xs i = [] := by
  rw [groupText]
  split
  · cases hx : firstAt xs i with
    | none => rfl
    | some x => exact hf x (List.mem_of_find?_eq_some hx)
  · rfl

theorem cell_deletions (i : Nat) :
    cell f data xs i = if ¬ Covered xs i then data[i]?.toList else [] := by
  rw [cell, groupText_deletions hf, List.nil_append]
  by_cases hc : Covered xs i
  · rw [if_pos hc, if_neg (not_not_intro hc)]
  · rw [if_neg hc, if_pos hc]

theorem rewriteSpans_deletions :
    rewriteSpans f data xs = keptAt (fun i => ¬ Covered xs i) data := by
  have hflat := flatMap_keptAt (fun i => ¬ Covered xs i) data 0
  simp only [decide_eq_true_eq, Nat.sub_zero] at hflat
  rw [rewriteSpans, List.range_eq_range', keptAt, ← hflat]
  exact List.flatMap_congr fun i _ => cell_deletions hf i

theorem length_deletions (hq : q ≤ data.length) :
    ((List.range q).flatMap (cell f data xs)).length = rank (fun i => ¬ Covered xs i) q := by
  induction q with
  | zero => rfl
  | succ q ih =>
    rw [List.range_succ, List.flatMap_append, List.length_append, ih (Nat.le_of_succ_le hq),
      rank_succ, List.flatMap_cons, List.flatMap_nil, List.append_nil, cell_deletions hf]
    have hx : data[q]? = some data[q] := List.getElem?_eq_getElem hq
    rw [hx]
    by_cases hc : Covered xs q
    · simp [hc]
    · simp [hc]

end deletions

end Cvise
