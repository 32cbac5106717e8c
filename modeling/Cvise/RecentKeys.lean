import Mathlib.Data.List.Nodup

namespace Cvise
set_option autoImplicit true

variable {κ ν : Type} [DecidableEq κ]

/-- What was added last for each key, the latest first, from what was added, the latest first. -/
def recent : List (κ × ν) → List (κ × ν)
  | [] => []
  | e :: l => e :: (recent l).filter (·.1 ≠ e.1)

theorem recent_nodup (l : List (κ × ν)) : ((recent l).map Prod.fst).Nodup := by
  induction l with
  | nil => exact List.nodup_nil
  | cons e l ih =>
    rw [recent, List.map_cons, List.nodup_cons]
    apply And.intro
    · intro hmem
      obtain ⟨a, ha, hkey⟩ := List.mem_map.1 hmem
      exact of_decide_eq_true (List.mem_filter.1 ha).2 hkey
    · exact ih.sublist (List.filter_sublist.map _)

/-- A bounded map in the order of insertion: what is there for the key is replaced, else what was
inserted first makes room. -/
def putBounded (n : Nat) (m : List (κ × ν)) (e : κ × ν) : List (κ × ν) :=
  (if m.any (·.1 = e.1) then m.filter (·.1 ≠ e.1)
    else if m.length ≥ n then m.tail
    else m) ++ [e]

theorem filter_of_not_mem {l : List (κ × ν)} (h : k ∉ l.map Prod.fst) :
    l.filter (·.1 ≠ k) = l := by
  rw [List.filter_eq_self]
  intro a ha
  exact decide_eq_true fun hkey => h (hkey ▸ List.mem_map_of_mem ha)

theorem any_key_iff {l : List (κ × ν)} : l.any (·.1 = k) = true ↔ k ∈ l.map Prod.fst := by
  rw [List.any_eq_true, List.mem_map]
  constructor
  · intro h
    obtain ⟨a, ha, hkey⟩ := h
    exact ⟨a, ha, of_decide_eq_true hkey⟩
  · intro h
    obtain ⟨a, ha, hkey⟩ := h
    exact ⟨a, ha, decide_eq_true hkey⟩

/-- A key among the first ones leaves room for the one after them. -/
theorem take_filter_of_mem {l : List (κ × ν)} (hnodup : (l.map Prod.fst).Nodup)
    (h : k ∈ (l.take (n + 1)).map Prod.fst) :
    (l.filter (·.1 ≠ k)).take n = (l.take (n + 1)).filter (·.1 ≠ k) := by
  induction l generalizing n with
  | nil => cases h
  | cons a l ih =>
    rw [List.map_cons, List.nodup_cons] at hnodup
    rw [List.take_succ_cons] at h ⊢
    by_cases hkey : a.1 = k
    · have hnot : k ∉ l.map Prod.fst := hkey ▸ hnodup.1
      have hneg : ¬ decide (a.1 ≠ k) = true := fun hd => of_decide_eq_true hd hkey
      rw [List.filter_cons, if_neg hneg, List.filter_cons, if_neg hneg, filter_of_not_mem hnot,
        filter_of_not_mem]
      intro hmem
      exact hnot (((List.take_sublist _ _).map _).subset hmem)
    · have hpos : decide (a.1 ≠ k) = true := decide_eq_true hkey
      rw [List.filter_cons, if_pos hpos, List.filter_cons, if_pos hpos]
      rcases List.mem_cons.1 h with heq | hmem
      · exact absurd heq.symm hkey
      · cases n with
        | zero => cases hmem
        | succ n => rw [List.take_succ_cons, ih hnodup.2 hmem]

/-- A key that is not among the first ones makes no difference to them. -/
theorem take_filter_of_not_mem {l : List (κ × ν)} (h : k ∉ (l.take n).map Prod.fst) :
    (l.filter (·.1 ≠ k)).take n = l.take n := by
  induction l generalizing n with
  | nil => rfl
  | cons a l ih =>
    cases n with
    | zero => rfl
    | succ n =>
      rw [List.take_succ_cons, List.map_cons, List.mem_cons, not_or] at h
      have hpos : decide (a.1 ≠ k) = true := decide_eq_true fun hkey => h.1 hkey.symm
      rw [List.filter_cons, if_pos hpos, List.take_succ_cons, List.take_succ_cons, ih h.2]

/-- The bounded map holds what was added last for the keys that were added last. -/
theorem putBounded_recent (n : Nat) (l : List (κ × ν)) (e : κ × ν) :
    putBounded (n + 1) ((recent l).take (n + 1)).reverse e =
      ((recent (e :: l)).take (n + 1)).reverse := by
  rw [putBounded, recent, List.take_succ_cons, List.reverse_cons]
  congr 1
  split
  · rename_i hany
    rw [any_key_iff, List.map_reverse, List.mem_reverse] at hany
    rw [List.filter_reverse, take_filter_of_mem (recent_nodup l) hany]
  · rename_i hnone
    rw [any_key_iff, List.map_reverse, List.mem_reverse] at hnone
    have hfewer : e.1 ∉ ((recent l).take n).map Prod.fst := by
      intro hmem
      apply hnone
      have hsub := List.take_sublist_take_left (l := recent l) (Nat.le_succ n)
      exact (hsub.map _).subset hmem
    rw [take_filter_of_not_mem hfewer, List.length_reverse, List.length_take]
    split
    · rename_i hlen
      have hmin : min (min (n + 1) (recent l).length - 1) (n + 1) = n := by omega
      rw [List.tail_reverse, List.dropLast_eq_take, List.length_take, List.take_take, hmin]
    · rename_i hlen
      rw [List.take_of_length_le (by omega), List.take_of_length_le (by omega)]

theorem putBounded_map {μ : Type} (f : ν → μ) (n : Nat) (m : List (κ × ν)) (e : κ × ν) :
    (putBounded n m e).map (fun a => (a.1, f a.2)) =
      putBounded n (m.map fun a => (a.1, f a.2)) (e.1, f e.2) := by
  rw [putBounded, putBounded, List.map_append, List.map_singleton, List.any_map, List.length_map,
    List.filter_map, ← List.map_tail]
  congr 1
  split
  · rename_i hany
    exact (if_pos hany).symm
  · rename_i hany
    rw [apply_ite (List.map _)]
    exact (if_neg hany).symm

theorem find?_of_mem {l : List (κ × ν)} (hnodup : (l.map Prod.fst).Nodup) (h : e ∈ l) :
    l.find? (·.1 = e.1) = some e := by
  cases hfind : l.find? (·.1 = e.1) with
  | none => exact absurd (decide_eq_true rfl) (List.find?_eq_none.1 hfind e h)
  | some a =>
    have hkey : decide (a.1 = e.1) = true :=
      List.find?_some (p := fun x : κ × ν => decide (x.1 = e.1)) hfind
    exact congrArg some (List.inj_on_of_nodup_map hnodup (List.mem_of_find?_eq_some hfind) h
      (of_decide_eq_true hkey))

end Cvise
