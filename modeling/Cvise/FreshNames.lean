import Cvise.RenameToks
import Mathlib.Data.List.Shortlex

namespace Cvise
set_option autoImplicit true

/-- Shorter names first, those of one length by the alphabet. -/
def NameLt (v w : Bytes) : Prop := List.Shortlex (· < ·) v w

theorem nameValue_append (s t : Bytes) :
    nameValue (s ++ t) = nameValue s + 26 ^ s.length * nameValue t := by
  induction s with
  | nil => rw [List.nil_append, nameValue, List.length_nil, Nat.pow_zero, Nat.one_mul, Nat.zero_add]
  | cons c s ih =>
    rw [List.cons_append, nameValue, nameValue, ih, List.length_cons, Nat.pow_succ, Nat.mul_add,
      Nat.add_assoc, ← Nat.mul_assoc, Nat.mul_comm (26 ^ s.length) 26]

theorem nameValue_near {s t : Bytes} (hs : ∀ c ∈ s, 97 ≤ c ∧ c ≤ 122)
    (ht : ∀ c ∈ t, 97 ≤ c ∧ c ≤ 122) (hlen : s.length = t.length) :
    nameValue s < nameValue t + 26 ^ s.length := by
  induction s generalizing t with
  | nil =>
    obtain rfl := List.length_eq_zero_iff.1 hlen.symm
    exact Nat.one_pos
  | cons c s ih =>
    obtain ⟨d, t, rfl⟩ := List.exists_cons_of_length_eq_add_one hlen.symm
    obtain ⟨hc, hs⟩ := List.forall_mem_cons.1 hs
    obtain ⟨hd, ht⟩ := List.forall_mem_cons.1 ht
    have hc' := lower_toNat hc
    have hd' := lower_toNat hd
    have hrest := ih hs ht (Nat.succ.inj hlen)
    rw [nameValue, nameValue, List.length_cons, Nat.pow_succ]
    omega

theorem nameOrder_lex {v w : Bytes} (hv : ∀ c ∈ v, 97 ≤ c ∧ c ≤ 122)
    (hw : ∀ c ∈ w, 97 ≤ c ∧ c ≤ 122) (hlen : v.length = w.length) (h : List.Lex (· < ·) v w) :
    nameOrder v < nameOrder w := by
  rw [nameOrder, nameOrder]
  induction h with
  | nil => cases hlen
  | @cons c v w h ih =>
    have hlen := Nat.succ.inj hlen
    have hrest := ih (List.forall_mem_cons.1 hv).2 (List.forall_mem_cons.1 hw).2 hlen
    rw [List.reverse_cons, List.reverse_cons, nameValue_append, nameValue_append,
      List.length_reverse, List.length_reverse, hlen]
    exact Nat.add_lt_add_right hrest _
  | @rel c v d w h =>
    have hlen : v.length = w.length := Nat.succ.inj hlen
    obtain ⟨hc, hv⟩ := List.forall_mem_cons.1 hv
    obtain ⟨hd, hw⟩ := List.forall_mem_cons.1 hw
    have hnear := nameValue_near (s := v.reverse) (t := w.reverse)
      (fun b hb => hv b (List.mem_reverse.1 hb)) (fun b hb => hw b (List.mem_reverse.1 hb))
      (by rw [List.length_reverse, List.length_reverse, hlen])
    rw [List.length_reverse, hlen] at hnear
    rw [List.reverse_cons, List.reverse_cons, nameValue_append, nameValue_append,
      List.length_reverse, List.length_reverse, hlen]
    have hlt : nameValue [c] + 1 ≤ nameValue [d] := by
      have hcd := UInt8.lt_iff_toNat_lt.1 h
      have hc' := lower_toNat hc
      have hd' := lower_toNat hd
      rw [nameValue, nameValue, nameValue]
      omega
    have hmul := Nat.mul_le_mul_left (26 ^ w.length) hlt
    rw [Nat.mul_add, Nat.mul_one] at hmul
    omega

theorem IsLowerName.order_iff {v w : Bytes} (hv : IsLowerName v) (hw : IsLowerName w) :
    nameOrder v < nameOrder w ↔ NameLt v w := by
  have hmono {v w : Bytes} (hv : IsLowerName v) (hw : IsLowerName w) (h : NameLt v w) :
      nameOrder v < nameOrder w := by
    rcases List.shortlex_def.1 h with hlen | ⟨hlen, hlex⟩
    · exact hv.order_lt hw hlen
    · exact nameOrder_lex hv.2 hw.2 hlen hlex
  constructor
  · intro h
    by_contra hnot
    by_cases hwv : NameLt w v
    · exact Nat.lt_asymm h (hmono hw hv hwv)
    · have he : v = w := List.Shortlex.trichotomous.trichotomous v w hnot hwv
      rw [he] at h
      exact Nat.lt_irrefl _ h
  · exact hmono hv hw

theorem IsLowerName.next_le {v : Bytes} (h : IsLowerName name) (hv : IsLowerName v)
    (hlt : nameOrder name < nameOrder v) : v = nextName name ∨ NameLt (nextName name) v := by
  rcases Nat.eq_or_lt_of_le (Nat.succ_le_of_lt hlt) with he | hlt'
  · rw [Nat.succ_eq_add_one, ← h.order_next] at he
    exact .inl (hv.order_inj h.next he.symm)
  · rw [Nat.succ_eq_add_one, ← h.order_next] at hlt'
    exact .inr ((h.next.order_iff hv).1 hlt')

theorem findUnusedName_mono {toks : List Tok} (h : findUnusedName toks fuel start = some name)
    (hle : fuel ≤ fuel') : findUnusedName toks fuel' start = some name := by
  induction fuel generalizing start fuel' with
  | zero => cases h
  | succ fuel ih =>
    obtain ⟨k, rfl⟩ := Nat.exists_eq_add_of_le hle
    rw [Nat.add_right_comm, findUnusedName]
    rw [findUnusedName] at h
    by_cases hany : toks.any (·.str = start) = true
    · rw [if_pos hany] at h ⊢
      exact ih h (Nat.le_add_right fuel k)
    · rw [if_neg hany] at h ⊢
      exact h

theorem IsLowerName.first_le {v : Bytes} (hv : IsLowerName v) : nameOrder [97] ≤ nameOrder v := by
  obtain ⟨c, s, hs⟩ := List.exists_cons_of_ne_nil fun hnil : v.reverse = [] =>
    hv.1 (List.reverse_eq_nil_iff.1 hnil)
  have hc := lower_toNat (hv.reverse c (hs ▸ List.mem_cons_self))
  have hfirst : nameOrder [97] = 1 := by decide
  rw [hfirst, nameOrder, hs, nameValue]
  omega

theorem FirstUnused.least {v : Bytes} {toks : List Tok} (h : FirstUnused toks [97] name)
    (hv : IsLowerName v) (hunused : ∀ t ∈ toks, t.str ≠ v) : v = name ∨ NameLt name v := by
  rcases Nat.lt_trichotomy (nameOrder v) (nameOrder name) with hlt | he | hlt
  · obtain ⟨t, ht, hstr⟩ := h.earlier v hv hv.first_le hlt
    exact absurd hstr (hunused t ht)
  · exact .inl (hv.order_inj h.lower he)
  · exact .inr ((h.lower.order_iff hv).1 hlt)

/-- `next_name` counts through the names in order, and `find_unused_name` ends with the least one
that is not in use. -/
theorem fresh_names_least :
    (∀ name, IsLowerName name → IsLowerName (nextName name) ∧ NameLt name (nextName name) ∧
      ∀ v, IsLowerName v → NameLt name v → v = nextName name ∨ NameLt (nextName name) v) ∧
    ∀ toks : List Tok, ∃ name,
      (∃ rounds, ∀ fuel, rounds ≤ fuel → findUnusedName toks fuel [97] = some name) ∧
      IsLowerName name ∧ (∀ t ∈ toks, t.str ≠ name) ∧
      ∀ v, IsLowerName v → (∀ t ∈ toks, t.str ≠ v) → v = name ∨ NameLt name v := by
  constructor
  · intro name h
    refine ⟨h.next, (h.order_iff h.next).1 ?_, fun v hv hlt => ?_⟩
    · rw [h.order_next]
      exact Nat.lt_succ_self _
    · exact h.next_le hv ((h.order_iff hv).2 hlt)
  · intro toks
    obtain ⟨name, hname⟩ := unusedName_some toks
    have hfirst := unusedName_first hname
    refine ⟨name, ⟨toks.length + 1, fun fuel hle => findUnusedName_mono hname hle⟩, hfirst.lower,
      hfirst.unused, fun v hv hunused => ?_⟩
    exact hfirst.least hv hunused

/-- The carry runs through every `z`. -/
example : nextName [122, 122] = [97, 97, 97] := by decide

end Cvise
