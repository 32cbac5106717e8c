import Mathlib.Data.List.Shortlex
import Cvise.Text

namespace Cvise
set_option autoImplicit true

/-- The sum of the weights of the letters. -/
def weightOf (w : α → Nat) (s : List α) : Nat := (s.map w).sum

section

variable {w : α → Nat} {r : α → α → Prop} {s t u v : List α}

theorem weightOf_append (s t : List α) : weightOf w (s ++ t) = weightOf w s + weightOf w t := by
  rw [weightOf, List.map_append, List.sum_append]
  rfl

theorem weightOf_cons (a : α) (s : List α) : weightOf w (a :: s) = w a + weightOf w s := rfl

theorem weightOf_eq_zero (h : ∀ a ∈ s, w a = 0) : weightOf w s = 0 := by
  induction s with
  | nil => rfl
  | cons a s ih =>
    obtain ⟨ha, hs⟩ := List.forall_mem_cons.1 h
    rw [weightOf_cons, ha, ih hs]

theorem weightOf_sublist (h : s.Sublist t) :
    weightOf w s ≤ weightOf w t := by
  induction h with
  | slnil => exact Nat.le_refl _
  | cons a _ ih => exact ih.trans (Nat.le_add_left _ _)
  | cons_cons a _ ih => exact Nat.add_le_add_left ih _

/-- Texts by their weight, those of one weight in the shortlex order. -/
def TextLt (w : α → Nat) (r : α → α → Prop) (s t : List α) : Prop :=
  Prod.Lex (· < ·) (List.Shortlex r) (weightOf w s, s) (weightOf w t, t)

def TextLe (w : α → Nat) (r : α → α → Prop) (s t : List α) : Prop := s = t ∨ TextLt w r s t

theorem textLt_wf (h : WellFounded r) : WellFounded (TextLt w r) :=
  InvImage.wf (fun s => (weightOf w s, s)) (WellFounded.prod_lex Nat.lt_wfRel.wf (List.Shortlex.wf h))

theorem textLt_iff : TextLt w r s t ↔
    weightOf w s < weightOf w t ∨ weightOf w s = weightOf w t ∧ List.Shortlex r s t :=
  Prod.lex_iff

theorem textLt_of_weight (h : weightOf w s < weightOf w t) : TextLt w r s t :=
  textLt_iff.2 (.inl h)

theorem textLt_of_length (hw : weightOf w s ≤ weightOf w t) (h : s.length < t.length) :
    TextLt w r s t := by
  rcases Nat.lt_or_eq_of_le hw with hlt | he
  · exact textLt_of_weight hlt
  · exact textLt_iff.2 (.inr ⟨he, .of_length_lt h⟩)

theorem lex_append (h : List.Lex r s t) (hlen : s.length = t.length) (u v : List α) :
    List.Lex r (s ++ u) (t ++ v) := by
  induction h with
  | nil => cases hlen
  | cons h ih => exact .cons (ih (Nat.succ.inj hlen))
  | rel h => exact .rel h

theorem lex_append_left (h : List.Lex r s t) (u : List α) : List.Lex r (u ++ s) (u ++ t) := by
  induction u with
  | nil => exact h
  | cons a u ih => exact .cons ih

theorem TextLe.length (h : TextLe w r s t) (hw : weightOf w s = weightOf w t) :
    s.length < t.length ∨ s.length = t.length ∧ (s = t ∨ List.Lex r s t) := by
  rcases h with rfl | h
  · exact .inr ⟨rfl, .inl rfl⟩
  · rcases textLt_iff.1 h with hlt | ⟨-, h⟩
    · exact absurd hw hlt.ne
    · rcases List.shortlex_def.1 h with hlt | ⟨hlen, hlex⟩
      · exact .inl hlt
      · exact .inr ⟨hlen, .inr hlex⟩

theorem TextLe.weight (h : TextLe w r s t) : weightOf w s ≤ weightOf w t := by
  rcases h with rfl | h
  · exact Nat.le_refl _
  · rcases textLt_iff.1 h with hlt | ⟨he, -⟩
    · exact hlt.le
    · exact he.le

theorem TextLt.append_le (h : TextLt w r s t) (h' : TextLe w r u v) :
    TextLt w r (s ++ u) (t ++ v) := by
  rcases textLt_iff.1 h with hlt | ⟨he, hshort⟩
  · refine textLt_of_weight ?_
    have hle := h'.weight
    rw [weightOf_append, weightOf_append]
    omega
  · rcases Nat.lt_or_eq_of_le h'.weight with hlt' | he'
    · refine textLt_of_weight ?_
      rw [weightOf_append, weightOf_append]
      omega
    · refine textLt_iff.2 (.inr ⟨?_, List.shortlex_def.2 ?_⟩)
      · rw [weightOf_append, weightOf_append, he, he']
      · rw [List.length_append, List.length_append]
        rcases List.shortlex_def.1 hshort with hlen | ⟨hlen, hlex⟩
        · rcases h'.length he' with hlen' | ⟨hlen', -⟩
          · exact .inl (by omega)
          · exact .inl (by omega)
        · rcases h'.length he' with hlen' | ⟨hlen', -⟩
          · exact .inl (by omega)
          · exact .inr ⟨by omega, lex_append hlex hlen u v⟩

theorem TextLe.append_lt (h : TextLe w r s t) (h' : TextLt w r u v) :
    TextLt w r (s ++ u) (t ++ v) := by
  rcases h with rfl | h
  · rcases textLt_iff.1 h' with hlt | ⟨he, hshort⟩
    · refine textLt_of_weight ?_
      rw [weightOf_append, weightOf_append]
      omega
    · refine textLt_iff.2 (.inr ⟨?_, List.shortlex_def.2 ?_⟩)
      · rw [weightOf_append, weightOf_append, he]
      · rw [List.length_append, List.length_append]
        rcases List.shortlex_def.1 hshort with hlen | ⟨hlen, hlex⟩
        · exact .inl (by omega)
        · exact .inr ⟨by omega, lex_append_left hlex s⟩
  · exact h.append_le (.inr h')

theorem TextLe.append (h : TextLe w r s t) (h' : TextLe w r u v) :
    TextLe w r (s ++ u) (t ++ v) := by
  rcases h with rfl | h
  · rcases h' with rfl | h'
    · exact .inl rfl
    · exact .inr (TextLe.append_lt (.inl rfl) h')
  · exact .inr (h.append_le h')

theorem TextLt.trans [IsTrans α r] (h : TextLt w r s t) (h' : TextLt w r t u) : TextLt w r s u := by
  have hlex {s t u : List α} (h : List.Lex r s t) (h' : List.Lex r t u) : List.Lex r s u := by
    induction h generalizing u with
    | nil =>
      cases h' with
      | cons h' => exact .nil
      | rel h' => exact .nil
    | cons h ih =>
      cases h' with
      | cons h' => exact .cons (ih h')
      | rel h' => exact .rel h'
    | rel h =>
      cases h' with
      | cons h' => exact .rel h
      | rel h' => exact .rel (trans_of r h h')
  rcases textLt_iff.1 h with hlt | ⟨he, hshort⟩
  · exact textLt_of_weight (hlt.trans_le (TextLe.weight (.inr h')))
  · rcases textLt_iff.1 h' with hlt' | ⟨he', hshort'⟩
    · exact textLt_of_weight (he.le.trans_lt hlt')
    · refine textLt_iff.2 (.inr ⟨he.trans he', List.shortlex_def.2 ?_⟩)
      rcases List.shortlex_def.1 hshort with hlen | ⟨hlen, hs⟩
      · rcases List.shortlex_def.1 hshort' with hlen' | ⟨hlen', -⟩
        · exact .inl (by omega)
        · exact .inl (by omega)
      · rcases List.shortlex_def.1 hshort' with hlen' | ⟨hlen', hs'⟩
        · exact .inl (by omega)
        · exact .inr ⟨by omega, hlex hs hs'⟩

theorem textLe_of_append (s t : List α) : TextLe w r s (s ++ t) := by
  cases t with
  | nil => exact .inl (List.append_nil s).symm
  | cons a t =>
    refine .inr (textLt_of_length ?_ ?_)
    · rw [weightOf_append]
      exact Nat.le_add_right _ _
    · rw [List.length_append, List.length_cons]
      omega

end

end Cvise
