import Cvise.NameReplacement

namespace Cvise
set_option autoImplicit true

variable {α : Type} [DecidableEq α] {nl a : α}

/-- A line of a text in which `nl` ends the lines. -/
def lineOf (nl : α) : List α → ℕ → List α
  | [], _ => []
  | y :: s, 0 => if y = nl then [] else y :: lineOf nl s 0
  | y :: s, k + 1 => if y = nl then lineOf nl s k else lineOf nl s (k + 1)

theorem lineOf_newline (s : List α) (k : ℕ) : lineOf nl (nl :: s) (k + 1) = lineOf nl s k := by
  rw [lineOf, if_pos rfl]

theorem lineOf_cons (h : y ≠ nl) (s : List α) (k : ℕ) :
    lineOf nl (y :: s) k = if k = 0 then y :: lineOf nl s 0 else lineOf nl s k := by
  cases k with
  | zero => rw [lineOf, if_neg h, if_pos rfl]
  | succ k => rw [lineOf, if_neg h, if_neg (Nat.succ_ne_zero k)]

theorem lineOf_append (s s' : List α) (k : ℕ) : lineOf nl (s ++ s') k =
    lineOf nl s k ++ if s.count nl ≤ k then lineOf nl s' (k - s.count nl) else [] := by
  induction s generalizing k with
  | nil =>
    rw [List.nil_append, List.count_nil, if_pos (Nat.zero_le k), Nat.sub_zero]
    rfl
  | cons y s ih =>
    rw [List.cons_append]
    by_cases hy : y = nl
    · subst hy
      rw [List.count_cons_self]
      cases k with
      | zero =>
        rw [lineOf, if_pos rfl, lineOf, if_pos rfl, if_neg (Nat.not_succ_le_zero _)]
        rfl
      | succ k =>
        rw [lineOf_newline, lineOf_newline, ih]
        simp only [Nat.add_le_add_iff_right, Nat.add_sub_add_right]
    · rw [lineOf_cons hy, lineOf_cons hy, List.count_cons_of_ne hy, ih, ih]
      by_cases hk : k = 0
      · subst hk
        rw [if_pos rfl, if_pos rfl, List.cons_append]
      · rw [if_neg hk, if_neg hk]

theorem count_replaceAll (hne : a ≠ nl) {v : List α} (hv : nl ∉ v) (s : List α) :
    (replaceAll a v s).count nl = s.count nl := by
  induction s with
  | nil => rfl
  | cons y s ih =>
    rw [replaceAll_cons, List.count_append, ih]
    split
    · rename_i hy
      rw [List.count_eq_zero.2 hv, hy, List.count_cons_of_ne hne, Nat.zero_add]
    · rw [← List.count_append, List.singleton_append]

theorem lineOf_of_not_mem {v : List α} (hv : nl ∉ v) (k : ℕ) :
    lineOf nl v k = if k = 0 then v else [] := by
  induction v generalizing k with
  | nil => split <;> rfl
  | cons y v ih =>
    obtain ⟨hy, hv⟩ := not_or.1 (mt List.mem_cons.2 hv)
    rw [lineOf_cons (Ne.symm hy), ih hv, ih hv, if_pos rfl]
    split <;> rfl

theorem lineOf_replaceAll (hne : a ≠ nl) {v : List α} (hv : nl ∉ v) (s : List α) (k : ℕ) :
    lineOf nl (replaceAll a v s) k = replaceAll a v (lineOf nl s k) := by
  induction s generalizing k with
  | nil => rfl
  | cons y s ih =>
    by_cases hy : y = nl
    · subst hy
      rw [replaceAll_cons, if_neg (Ne.symm hne), List.singleton_append]
      cases k with
      | zero => rw [lineOf, if_pos rfl, lineOf, if_pos rfl]; rfl
      | succ k => rw [lineOf_newline, lineOf_newline, ih]
    · have hhead : nl ∉ (if y = a then v else [y]) := by
        split
        · exact hv
        · exact fun h => hy (List.mem_singleton.1 h).symm
      rw [replaceAll_cons, lineOf_append, lineOf_of_not_mem hhead, List.count_eq_zero.2 hhead,
        if_pos (Nat.zero_le k), Nat.sub_zero, ih, lineOf_cons hy]
      split
      · rename_i hk
        rw [replaceAll_cons, hk]
      · rfl

theorem mem_lineOf (hne : a ≠ nl) {s : List α} (h : a ∈ s) :
    ∃ k ≤ s.count nl, a ∈ lineOf nl s k := by
  induction s with
  | nil => cases h
  | cons y s ih =>
    by_cases hy : y = nl
    · subst hy
      obtain ⟨k, hk, hmem⟩ := ih ((List.mem_cons.1 h).resolve_left hne)
      refine ⟨k + 1, ?_, ?_⟩
      · rw [List.count_cons_self]
        exact Nat.succ_le_succ hk
      · rw [lineOf_newline]
        exact hmem
    · rw [List.count_cons_of_ne hy]
      rcases List.mem_cons.1 h with rfl | h
      · refine ⟨0, Nat.zero_le _, ?_⟩
        rw [lineOf_cons hy, if_pos rfl]
        exact List.mem_cons_self
      · obtain ⟨k, hk, hmem⟩ := ih h
        refine ⟨k, hk, ?_⟩
        rw [lineOf_cons hy]
        split
        · rename_i h0
          rw [h0] at hmem
          exact List.mem_cons_of_mem _ hmem
        · exact hmem

/-- One replacement in a text: `v` is what stands between the name `a` and the end of its line. -/
structure ReplacesLine (nl : α) (s s' before : List α) (a : α) (v after : List α) : Prop where
  split : s = before ++ a :: (v ++ nl :: after)
  line : nl ∉ v
  fresh : a ∉ v
  used : 1 < s.count a
  result : s' = replaceAll a v before ++ a :: replaceAll a v (v ++ nl :: after)

namespace ReplacesLine

theorem count_name {s s' before v after : List α} (h : ReplacesLine nl s s' before a v after) :
    s'.count a = 1 := by
  have hnone (t : List α) : (replaceAll a v t).count a = 0 := by
    refine List.count_eq_zero.2 fun hmem => ?_
    rcases mem_replaceAll.1 hmem with ⟨-, hne⟩ | ⟨-, hin⟩
    · exact hne rfl
    · exact h.fresh hin
  rw [h.result, List.count_append, List.count_cons_self, hnone, hnone]

theorem count_newline {s s' before v after : List α} (h : ReplacesLine nl s s' before a v after)
    (hne : a ≠ nl) : s'.count nl = s.count nl := by
  rw [h.result, h.split, List.count_append, List.count_append, List.count_cons_of_ne hne,
    List.count_cons_of_ne hne, count_replaceAll hne h.line, count_replaceAll hne h.line]

/-- A text has no more lines than before, and fewer if it is the end of lines that is replaced. -/
theorem count_newline_le {s s' before v after : List α}
    (h : ReplacesLine nl s s' before a v after) :
    s'.count nl ≤ s.count nl ∧ (s'.count nl = s.count nl → a ≠ nl) := by
  by_cases hne : a = nl
  · subst hne
    have hone := h.count_name
    have hused := h.used
    exact ⟨by omega, fun he => by omega⟩
  · exact ⟨(h.count_newline hne).le, fun _ => hne⟩

theorem replaces {s s' before v after : List α} (h : ReplacesLine nl s s' before a v after)
    (hne : a ≠ nl) (hn : s.count nl = n) : ∃ home before' body, Replaces
      (fun k : Fin (n + 1) => lineOf nl s k) (fun k : Fin (n + 1) => lineOf nl s' k) home before'
      a body := by
  have hhome : before.count nl < n + 1 := by
    rw [← hn, h.split, List.count_append]
    omega
  have hfirst : lineOf nl (v ++ nl :: after) 0 = v := by
    rw [lineOf_append, lineOf_of_not_mem h.line, List.count_eq_zero.2 h.line, if_pos rfl,
      if_pos (Nat.le_refl 0), Nat.sub_zero, lineOf, if_pos rfl, List.append_nil]
  refine ⟨⟨before.count nl, hhome⟩, lineOf nl before (before.count nl), v, ?_, h.fresh, ?_, ?_⟩
  · show lineOf nl s (before.count nl) = _
    rw [h.split, lineOf_append, if_pos (Nat.le_refl _), Nat.sub_self, lineOf_cons hne, if_pos rfl,
      hfirst]
  · have hused := h.used
    rw [h.split, List.count_append, List.count_cons_self, List.count_append,
      List.count_eq_zero.2 h.fresh, List.count_cons_of_ne (Ne.symm hne)] at hused
    by_cases hbefore : a ∈ before
    · obtain ⟨k, hk, hmem⟩ := mem_lineOf hne hbefore
      by_cases he : k = before.count nl
      · exact .inl (he ▸ hmem)
      · refine .inr ⟨⟨k, by omega⟩, fun heq => he (Fin.mk.inj heq), ?_⟩
        show a ∈ lineOf nl s k
        rw [h.split, lineOf_append]
        exact List.mem_append_left _ hmem
    · rw [List.count_eq_zero.2 hbefore] at hused
      obtain ⟨k, hk, hmem⟩ := mem_lineOf hne (List.count_pos_iff.1 (by omega : 0 < after.count a))
      have hcount : s.count nl = before.count nl + (after.count nl + 1) := by
        rw [h.split, List.count_append, List.count_cons_of_ne hne, List.count_append,
          List.count_eq_zero.2 h.line, List.count_cons_self, Nat.zero_add]
      refine .inr ⟨⟨before.count nl + (k + 1), by omega⟩, fun heq => ?_, ?_⟩
      · have hval := Fin.mk.inj heq
        omega
      · show a ∈ lineOf nl s (before.count nl + (k + 1))
        rw [h.split, lineOf_append, if_pos (Nat.le_add_right _ _), Nat.add_sub_cancel_left,
          lineOf_cons hne, if_neg (Nat.succ_ne_zero k), lineOf_append,
          List.count_eq_zero.2 h.line, if_pos (Nat.zero_le _), Nat.sub_zero, lineOf_newline]
        exact List.mem_append_right _ (List.mem_append_right _ hmem)
  · intro k
    show lineOf nl s' k = _
    split
    · rename_i hk
      have hval : (k : ℕ) = before.count nl := congrArg Fin.val hk
      rw [hval, h.result, lineOf_append, count_replaceAll hne h.line, if_pos (Nat.le_refl _),
        Nat.sub_self, lineOf_cons hne, if_pos rfl, lineOf_replaceAll hne h.line,
        lineOf_replaceAll hne h.line, hfirst, replaceAll_of_not_mem h.fresh]
    · rename_i hk
      have hval : (k : ℕ) ≠ before.count nl := fun he => hk (Fin.ext he)
      show _ = replaceAll a v (lineOf nl s k)
      rw [← lineOf_replaceAll hne h.line, h.result, h.split, replaceAll_append a v before,
        replaceAll_cons a v a, if_pos rfl, lineOf_append, lineOf_append (replaceAll a v before),
        count_replaceAll hne h.line]
      split
      · have hpos : (k : ℕ) - before.count nl ≠ 0 := by omega
        rw [lineOf_cons hne, if_neg hpos, lineOf_append v, lineOf_of_not_mem h.line, if_neg hpos,
          List.count_eq_zero.2 h.line, if_pos (Nat.zero_le _), Nat.sub_zero, List.nil_append]
      · rfl

end ReplacesLine

theorem no_endless_line_replacement (s : ℕ → List α)
    (h : ∀ t, ∃ before a v after, ReplacesLine nl (s t) (s (t + 1)) before a v after) : False := by
  have hle (t n : ℕ) : (s (t + n)).count nl ≤ (s t).count nl := by
    induction n with
    | zero => exact Nat.le_refl _
    | succ n ih =>
      obtain ⟨before, a, v, after, hstep⟩ := h (t + n)
      exact hstep.count_newline_le.1.trans ih
  -- From some step on the number of lines stays, and the end of a line is not replaced any more.
  obtain ⟨m, hm⟩ : ∃ m, ∀ t, (s m).count nl ≤ (s t).count nl := by
    classical
    have hex : ∃ c t, (s t).count nl = c := ⟨_, 0, rfl⟩
    obtain ⟨m, hm⟩ := Nat.find_spec hex
    refine ⟨m, fun t => ?_⟩
    rw [hm]
    exact Nat.find_min' hex ⟨t, rfl⟩
  have hcount (n : ℕ) : (s (m + n)).count nl = (s m).count nl :=
    Nat.le_antisymm (hle m n) (hm _)
  refine no_endless_replacement
    (fun n (k : Fin ((s m).count nl + 1)) => lineOf nl (s (m + n)) k) fun n => ?_
  obtain ⟨before, a, v, after, hstep⟩ := h (m + n)
  have hne : a ≠ nl := hstep.count_newline_le.2 ((hcount (n + 1)).trans (hcount n).symm)
  obtain ⟨home, before', body, hreplaces⟩ := hstep.replaces hne (hcount n)
  exact ⟨home, before', a, body, hreplaces⟩

end Cvise
