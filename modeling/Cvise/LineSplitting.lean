import Mathlib.Data.List.Basic

namespace Cvise
set_option autoImplicit true

section splitting

variable {α : Type} {newline : α} {lines : List (List α)}

/-- What the lines of a text are: each ends in a newline and has no other one, but for the last one,
which may lack it. -/
structure AreLines (newline : α) (lines : List (List α)) : Prop where
  ended : lines.Pairwise fun line _ => line.getLast? = some newline
  single : ∀ line ∈ lines, line ≠ [] ∧ newline ∉ line.dropLast

theorem AreLines.sublist (h : AreLines newline lines) (hsub : kept.Sublist lines) :
    AreLines newline kept :=
  ⟨h.ended.sublist hsub, fun line hl => h.single line (hsub.subset hl)⟩

variable [DecidableEq α]

/-- The lines of a text, each up to the newline that it ends in. -/
def splitLines (newline : α) : List α → List (List α)
  | [] => []
  | x :: text =>
    if x = newline then [x] :: splitLines newline text
    else match splitLines newline text with
      | [] => [[x]]
      | line :: lines => (x :: line) :: lines

theorem flatten_splitLines (newline : α) (text : List α) :
    (splitLines newline text).flatten = text := by
  induction text with
  | nil => rfl
  | cons x text ih =>
    rw [splitLines]
    split
    · rw [List.flatten_cons, ih]
      rfl
    · split
      · rename_i hnil
        rw [hnil] at ih
        rw [← ih]
        rfl
      · rename_i line lines hlines
        rw [hlines] at ih
        rw [← ih]
        rfl

theorem areLines_splitLines (newline : α) (text : List α) :
    AreLines newline (splitLines newline text) := by
  induction text with
  | nil => exact ⟨List.Pairwise.nil, List.forall_mem_nil _⟩
  | cons x text ih =>
    rw [splitLines]
    split
    · rename_i hx
      refine ⟨List.pairwise_cons.2 ⟨fun _ _ => congrArg some hx, ih.ended⟩, ?_⟩
      exact List.forall_mem_cons.2 ⟨⟨List.cons_ne_nil _ _, List.not_mem_nil⟩, ih.single⟩
    · rename_i hx
      split
      · refine ⟨List.pairwise_singleton _ _, List.forall_mem_singleton.2 ?_⟩
        exact ⟨List.cons_ne_nil _ _, List.not_mem_nil⟩
      · rename_i line lines hlines
        rw [hlines] at ih
        obtain ⟨hended, hpair⟩ := List.pairwise_cons.1 ih.ended
        obtain ⟨⟨hne, hsingle⟩, hrest⟩ := List.forall_mem_cons.1 ih.single
        refine ⟨List.pairwise_cons.2 ⟨fun line' h => ?_, hpair⟩,
          List.forall_mem_cons.2 ⟨⟨List.cons_ne_nil _ _, fun hmem => ?_⟩, hrest⟩⟩
        · rw [List.getLast?_cons_of_ne_nil hne]
          exact hended line' h
        · rw [List.dropLast_cons_of_ne_nil hne] at hmem
          rcases List.mem_cons.1 hmem with heq | hmem
          · exact hx heq.symm
          · exact hsingle hmem

theorem splitLines_append (hbody : newline ∉ body) (text : List α) :
    splitLines newline (body ++ newline :: text) =
      (body ++ [newline]) :: splitLines newline text := by
  induction body with
  | nil => rw [List.nil_append, splitLines, if_pos rfl, List.nil_append]
  | cons x body ih =>
    obtain ⟨hx, hbody⟩ := not_or.1 (mt List.mem_cons.2 hbody)
    rw [List.cons_append, splitLines, if_neg (Ne.symm hx), ih hbody]
    rfl

theorem splitLines_single (hne : body ≠ []) (hbody : newline ∉ body) :
    splitLines newline body = [body] := by
  induction body with
  | nil => exact absurd rfl hne
  | cons x body ih =>
    obtain ⟨hx, hbody⟩ := not_or.1 (mt List.mem_cons.2 hbody)
    rw [splitLines, if_neg (Ne.symm hx)]
    cases body with
    | nil => rfl
    | cons y body => rw [ih (List.cons_ne_nil _ _) hbody]

theorem AreLines.splitLines_flatten (h : AreLines newline lines) :
    splitLines newline lines.flatten = lines := by
  induction lines with
  | nil => rfl
  | cons line lines ih =>
    obtain ⟨hended, hpair⟩ := List.pairwise_cons.1 h.ended
    obtain ⟨⟨hne, hsingle⟩, hrest⟩ := List.forall_mem_cons.1 h.single
    have hlast : line = line.dropLast ++ [line.getLast hne] :=
      (List.dropLast_append_getLast hne).symm
    by_cases hnl : line.getLast hne = newline
    · rw [hnl] at hlast
      have hcat : (line :: lines).flatten = line.dropLast ++ newline :: lines.flatten := by
        rw [List.flatten_cons]
        conv_lhs => rw [hlast]
        rw [List.append_assoc, List.singleton_append]
      rw [hcat, splitLines_append hsingle, ih ⟨hpair, hrest⟩, ← hlast]
    · cases lines with
      | nil =>
        rw [List.flatten_singleton]
        refine splitLines_single hne fun hmem => ?_
        rw [hlast] at hmem
        rcases List.mem_append.1 hmem with hmem | hmem
        · exact hsingle hmem
        · exact hnl (List.mem_singleton.1 hmem).symm
      | cons line' lines =>
        have hend := hended line' List.mem_cons_self
        rw [List.getLast?_eq_some_getLast hne] at hend
        exact absurd (Option.some.inj hend) hnl

end splitting

end Cvise
