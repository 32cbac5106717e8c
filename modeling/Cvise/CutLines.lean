import Cvise.JoinedLines
import Cvise.ShellFields
import Mathlib.Data.List.Chain

namespace Cvise
set_option autoImplicit true

namespace MakefileParser

def joinedBytes (st : JoinState) : Bytes → List ((UInt8 × UInt8) × Bool)
  | [] => []
  | b :: rest =>
    if b = 10 ∧ st ≠ .continued then ((b, b), true) :: joinedBytes .text rest
    else ((joinByte st b rest).1, false) :: joinedBytes (joinByte st b rest).2 rest

/-- The lines of letters that are marked where a line ends. -/
def splitEnds : List (α × Bool) → List (List α)
  | [] => []
  | (x, true) :: rest => [x] :: splitEnds rest
  | (x, false) :: rest => consLine x (splitEnds rest)

/-- A byte that is no blank, and no backslash that may continue a line. -/
def IsSolid (b : UInt8) : Prop := b ≠ 92 ∧ isShellSpace b = false

instance (b : UInt8) : Decidable (IsSolid b) := inferInstanceAs (Decidable (_ ∧ _))

/-- Of two marked bytes: a cut begins or ends behind the first one only if it is solid. -/
def CutSolid (x y : UInt8 × Bool) : Prop := x.2 ≠ y.2 → IsSolid x.1

/-- What stays of marked letters. -/
def kept (ms : List (α × Bool)) : List α := (ms.filter Prod.snd).map Prod.fst

theorem joinedLines_splitEnds (st : JoinState) (data : Bytes) :
    joinedLines st data = splitEnds (joinedBytes st data) := by
  induction data generalizing st with
  | nil => rfl
  | cons b rest ih =>
    rw [joinedLines, joinedBytes]
    split
    · rw [splitEnds, ih]
    · rw [splitEnds, ih]

theorem continues_cr (rest : Bytes) : continues (13 :: rest) = continues rest := by
  rw [continues, List.dropWhile_cons_of_pos (by decide), continues]

theorem continues_newline (rest : Bytes) : continues (10 :: rest) = !rest.isEmpty := by
  cases rest with
  | nil => rfl
  | cons b rest => rfl

theorem continues_other (hcr : b ≠ 13) (hnl : b ≠ 10) (rest : Bytes) :
    continues (b :: rest) = false := by
  rw [continues, List.dropWhile_cons_of_neg (by simp [hcr])]
  split
  · rename_i heq
    exact absurd (List.cons.inj heq).1 hnl
  · rfl

theorem kept_cons_true (x : α) (ms : List (α × Bool)) : kept ((x, true) :: ms) = x :: kept ms := rfl

theorem kept_cons_false (x : α) (ms : List (α × Bool)) : kept ((x, false) :: ms) = kept ms := rfl

theorem IsSolid.not_cr (h : IsSolid b) : b ≠ 13 := by
  rintro rfl
  exact absurd h.2 (by decide)

theorem IsSolid.not_newline (h : IsSolid b) : b ≠ 10 := by
  rintro rfl
  exact absurd h.2 (by decide)

variable {ms : List (UInt8 × Bool)}

/-- Behind a byte that is not solid nothing is cut. -/
theorem head_kept (hnot : ¬ IsSolid b) (h : ∀ y ∈ ms.head?, CutSolid (b, true) y) :
    ∀ y ∈ ms.head?, y.2 = true := by
  intro y hy
  cases hkeep : y.2 with
  | true => rfl
  | false => exact absurd (h y hy (by rw [hkeep]; exact Bool.noConfusion)) hnot

theorem continues_kept (hchain : ms.IsChain CutSolid) (hhead : ∀ y ∈ ms.head?, y.2 = true) :
    continues (kept ms) = continues (ms.map Prod.fst) := by
  induction ms with
  | nil => rfl
  | cons x ms ih =>
    obtain ⟨b, k⟩ := x
    obtain rfl : k = true := hhead _ rfl
    obtain ⟨hnext, hrest⟩ := List.isChain_cons.1 hchain
    rw [kept_cons_true, List.map_cons]
    by_cases hcr : b = 13
    · subst hcr
      rw [continues_cr, continues_cr]
      exact ih hrest (head_kept (fun h => h.not_cr rfl) hnext)
    · by_cases hnl : b = 10
      · subst hnl
        have hkept := head_kept (fun h => h.not_newline rfl) hnext
        rw [continues_newline, continues_newline]
        cases ms with
        | nil => rfl
        | cons y ms =>
          obtain ⟨c, k⟩ := y
          obtain rfl : k = true := hkept _ rfl
          rfl
      · rw [continues_other hcr hnl, continues_other hcr hnl]

theorem joinByte_congr (h : b = 92 → continues rest = continues rest') (st : JoinState) :
    joinByte st b rest = joinByte st b rest' := by
  rw [joinByte, joinByte]
  by_cases hb : b = 92
  · rw [h hb]
  · simp only [hb, false_and, if_false]

/-- Between the backslash and the end of the line only the end of the line comes. -/
theorem joinByte_waits (hwait : st = .continued → continues (b :: rest) = true)
    (hnext : (joinByte st b rest).2 = .continued) : continues rest = true := by
  rw [joinByte] at hnext
  split at hnext
  · rename_i h
    exact h.2
  · split at hnext
    · rename_i hst
      have hcontinues := hwait hst
      by_cases hnl : b = 10
      · rw [if_pos hnl] at hnext
        cases hnext
      · by_cases hcr : b = 13
        · rwa [hcr, continues_cr] at hcontinues
        · rw [continues_other hcr hnl] at hcontinues
          cases hcontinues
    · split at hnext
      · cases hnext
      · cases hnext

theorem joinByte_solid (hb : IsSolid b) (hwait : st = .continued → continues (b :: rest) = true) :
    (joinByte st b rest).2 = .text := by
  rw [joinByte, if_neg fun h => hb.1 h.1]
  split
  · rename_i hst
    have hcontinues := hwait hst
    rw [continues_other hb.not_cr hb.not_newline] at hcontinues
    cases hcontinues
  · split
    · rfl
    · rfl

/-- The text without what is cut reads as before: a simulation of the two readings, where that of
the shorter text waits in the text of a line while the other one passes over a cut. -/
theorem joinedBytes_kept (hchain : ms.IsChain CutSolid)
    (hkeep : ∀ y ∈ ms.head?, y.2 = true → st' = st)
    (hcut : ∀ y ∈ ms.head?, y.2 = false → st' = .text)
    (hwait : st = .continued → continues (ms.map Prod.fst) = true)
    (hends : ∀ z ∈ (joinedBytes st (ms.map Prod.fst)).zip (ms.map Prod.snd),
      z.2 = false → z.1.2 = false) :
    joinedBytes st' (kept ms) =
      kept ((joinedBytes st (ms.map Prod.fst)).zip (ms.map Prod.snd)) := by
  induction ms generalizing st st' with
  | nil => rfl
  | cons x ms ih =>
    obtain ⟨b, k⟩ := x
    obtain ⟨hnext, hrest⟩ := List.isChain_cons.1 hchain
    rw [List.map_cons, List.map_cons] at hends ⊢
    rw [List.map_cons] at hwait
    rw [joinedBytes] at hends ⊢
    cases k with
    | true =>
      obtain rfl : st' = st := hkeep _ rfl rfl
      rw [kept_cons_true, joinedBytes]
      by_cases hend : b = 10 ∧ st' ≠ .continued
      · rw [if_pos hend] at hends ⊢
        rw [if_pos hend, List.zip_cons_cons, kept_cons_true]
        rw [List.zip_cons_cons] at hends
        refine congrArg _ (ih hrest (fun _ _ _ => rfl) (fun _ _ _ => rfl) (fun h => ?_) ?_)
        · cases h
        · exact fun z hz => hends z (List.mem_cons_of_mem _ hz)
      · have hsame : joinByte st' b (kept ms) = joinByte st' b (ms.map Prod.fst) := by
          refine joinByte_congr (fun hb => continues_kept hrest (head_kept ?_ hnext)) st'
          exact fun h => h.1 hb
        rw [if_neg hend] at hends ⊢
        rw [if_neg hend, List.zip_cons_cons, kept_cons_true, hsame]
        rw [List.zip_cons_cons] at hends
        refine congrArg _ (ih hrest (fun _ _ _ => rfl) (fun y hy hk => ?_)
          (joinByte_waits hwait) fun z hz => hends z (List.mem_cons_of_mem _ hz))
        exact joinByte_solid (hnext y hy (by rw [hk]; exact Bool.noConfusion)) hwait
    | false =>
      obtain rfl : st' = .text := hcut _ rfl rfl
      rw [kept_cons_false]
      by_cases hend : b = 10 ∧ st ≠ .continued
      · rw [if_pos hend, List.zip_cons_cons] at hends
        exact absurd (hends _ List.mem_cons_self rfl) Bool.noConfusion
      · rw [if_neg hend] at hends ⊢
        rw [List.zip_cons_cons, kept_cons_false]
        rw [List.zip_cons_cons] at hends
        refine ih hrest (fun y hy hk => ?_) (fun _ _ _ => rfl) (joinByte_waits hwait)
          fun z hz => hends z (List.mem_cons_of_mem _ hz)
        exact (joinByte_solid (hnext y hy (by rw [hk]; exact Bool.noConfusion)) hwait).symm

section ends

variable {α β : Type} {W : List (α × Bool)}

theorem consLine_map (f : α → β) (x : α) (lines : List (List α)) :
    (consLine x lines).map (List.map f) = consLine (f x) (lines.map (List.map f)) := by
  cases lines with
  | nil => rfl
  | cons line lines => rfl

theorem splitEnds_map (f : α → β) (W : List (α × Bool)) :
    splitEnds (W.map fun x => (f x.1, x.2)) = (splitEnds W).map (List.map f) := by
  induction W with
  | nil => rfl
  | cons x W ih =>
    obtain ⟨a, e⟩ := x
    rw [List.map_cons]
    cases e with
    | true => rw [splitEnds, splitEnds, ih, List.map_cons, List.map_singleton]
    | false => rw [splitEnds, splitEnds, ih, consLine_map]

theorem splitEnds_flatten (W : List (α × Bool)) : (splitEnds W).flatten = W.map Prod.fst := by
  induction W with
  | nil => rfl
  | cons x W ih =>
    obtain ⟨a, e⟩ := x
    rw [List.map_cons, ← ih]
    cases e with
    | true => rfl
    | false => rw [splitEnds, consLine_flatten]

theorem splitEnds_ne_nil : ∀ l ∈ splitEnds W, l ≠ [] := by
  induction W with
  | nil => exact List.forall_mem_nil _
  | cons x W ih =>
    obtain ⟨a, e⟩ := x
    cases e with
    | true => exact List.forall_mem_cons.2 ⟨List.cons_ne_nil _ _, ih⟩
    | false =>
      rw [splitEnds]
      cases hrest : splitEnds W with
      | nil => exact List.forall_mem_singleton.2 (List.cons_ne_nil _ _)
      | cons l ls =>
        rw [hrest] at ih
        exact List.forall_mem_cons.2 ⟨List.cons_ne_nil _ _, (List.forall_mem_cons.1 ih).2⟩

/-- What ends a line is the last letter of one. -/
theorem splitEnds_end {a : α} (h : (a, true) ∈ W) : ∃ l ∈ splitEnds W, l.getLast? = some a := by
  induction W with
  | nil => cases h
  | cons x W ih =>
    obtain ⟨b, e⟩ := x
    cases e with
    | true =>
      rcases List.mem_cons.1 h with heq | h
      · cases heq
        exact ⟨[a], List.mem_cons_self, rfl⟩
      · obtain ⟨l, hl, hlast⟩ := ih h
        exact ⟨l, List.mem_cons_of_mem _ hl, hlast⟩
    | false =>
      rcases List.mem_cons.1 h with heq | h
      · cases heq
      · obtain ⟨l, hl, hlast⟩ := ih h
        rw [splitEnds]
        cases hrest : splitEnds W with
        | nil =>
          rw [hrest] at hl
          cases hl
        | cons l' ls =>
          rw [hrest] at hl
          rcases List.mem_cons.1 hl with rfl | hl
          · refine ⟨b :: l, List.mem_cons_self, ?_⟩
            rw [List.getLast?_cons, hlast]
            rfl
          · exact ⟨l, List.mem_cons_of_mem _ hl, hlast⟩

theorem splitEnds_next (h : splitEnds W = l :: l' :: ls) : ∃ a, (a, true) ∈ W ∧ a ∈ l := by
  induction W generalizing l l' ls with
  | nil => cases h
  | cons x W ih =>
    obtain ⟨b, e⟩ := x
    cases e with
    | true =>
      obtain ⟨rfl, -⟩ := List.cons.inj h
      exact ⟨b, List.mem_cons_self, List.mem_singleton_self b⟩
    | false =>
      rw [splitEnds] at h
      cases hrest : splitEnds W with
      | nil =>
        rw [hrest] at h
        cases h
      | cons l₁ ls₁ =>
        rw [hrest] at h
        obtain ⟨rfl, rfl⟩ := List.cons.inj h
        obtain ⟨a, ha, hmem⟩ := ih hrest
        exact ⟨a, List.mem_cons_of_mem _ ha, List.mem_cons_of_mem _ hmem⟩

theorem mem_kept {ms : List (α × Bool)} (h : x ∈ ms) (hx : x.2 = true) : x.1 ∈ kept ms :=
  List.mem_map_of_mem (List.mem_filter.2 ⟨h, hx⟩)

/-- Where all ends stay, the lines are cut one by one, and those of which nothing stays are gone. -/
theorem splitEnds_kept {Z : List ((α × Bool) × Bool)} (hends : ∀ z ∈ Z, z.2 = true → z.1.2 = true) :
    splitEnds ((Z.filter (·.1.2)).map fun z => (z.1.1, z.2)) =
      ((splitEnds Z).map kept).filter (! ·.isEmpty) := by
  induction Z with
  | nil => rfl
  | cons z Z ih =>
    obtain ⟨⟨x, k⟩, e⟩ := z
    obtain ⟨hend, hrest⟩ := List.forall_mem_cons.1 hends
    have ih := ih hrest
    cases e with
    | true =>
      obtain rfl : k = true := hend rfl
      rw [List.filter_cons_of_pos rfl, List.map_cons, splitEnds, ih, splitEnds, List.map_cons]
      rfl
    | false =>
      cases k with
      | false =>
        rw [List.filter_cons_of_neg Bool.false_ne_true, ih, splitEnds]
        cases splitEnds Z with
        | nil => rfl
        | cons l ls => rfl
      | true =>
        rw [List.filter_cons_of_pos rfl, List.map_cons, splitEnds, ih, splitEnds]
        cases hlines : splitEnds Z with
        | nil => rfl
        | cons l ls =>
          cases ls with
          | nil =>
            rw [List.map_singleton, consLine, List.map_singleton, kept_cons_true]
            cases kept l with
            | nil => rfl
            | cons a as => rfl
          | cons l' ls =>
            obtain ⟨a, ha, hmem⟩ := splitEnds_next hlines
            have hne : (! (kept l).isEmpty) = true := by
              rw [Bool.not_eq_true', List.isEmpty_eq_false_iff]
              have hstay : a.2 = true := hrest (a, true) ha rfl
              exact List.ne_nil_of_mem (mem_kept hmem hstay)
            rw [List.map_cons, List.filter_cons_of_pos (p := fun as : List α => ! as.isEmpty) hne,
              consLine, consLine]
            rfl

end ends

theorem joinedBytes_end (h : (p, true) ∈ joinedBytes st data) : p.1 = 10 := by
  induction data generalizing st with
  | nil => cases h
  | cons b rest ih =>
    rw [joinedBytes] at h
    split at h
    · rename_i hend
      rcases List.mem_cons.1 h with heq | h
      · obtain rfl := congrArg Prod.fst heq
        exact hend.1
      · exact ih h
    · rcases List.mem_cons.1 h with heq | h
      · cases congrArg Prod.snd heq
      · exact ih h

theorem kept_map (f : α → β) (ms : List (α × Bool)) :
    kept (ms.map fun x => (f x.1, x.2)) = (kept ms).map f := by
  rw [kept, kept, List.filter_map, List.map_map, List.map_map]
  rfl

/-- The logical lines of a file of which something is cut, where no cut is at the begin of a line or
goes beyond its end, and each one begins and ends behind a solid byte: the cut lines. -/
theorem logicalLines_kept {marked : List (List ((UInt8 × UInt8) × Bool))}
    (hlines : marked.map (List.map Prod.fst) = joinedLines .text data)
    (hchain : (marked.flatten.map fun x => (x.1.1, x.2)).IsChain CutSolid)
    (hhead : ∀ l ∈ marked, ∃ x ∈ l.head?, x.2 = true)
    (hlast : ∀ l ∈ marked, ∀ x ∈ l.getLast?, x.2 = false → x.1.1 ≠ 10) :
    logicalLines (fileText (kept marked.flatten)) = marked.map fun l => joinedText (kept l) := by
  have hpairs : marked.flatten.map Prod.fst = (joinedBytes .text data).map Prod.fst := by
    rw [List.map_flatten, hlines, joinedLines_splitEnds, splitEnds_flatten]
  have hdata : (marked.flatten.map fun x => (x.1.1, x.2)).map Prod.fst = data := by
    rw [List.map_map, ← fileText_joinedLines .text data, ← hlines, ← List.map_flatten, fileText,
      List.map_map]
    rfl
  have hkeeps : (marked.flatten.map fun x => (x.1.1, x.2)).map Prod.snd =
      marked.flatten.map Prod.snd := by
    rw [List.map_map]
    rfl
  have hlength : (joinedBytes .text data).length ≤ (marked.flatten.map Prod.snd).length := by
    have hfst : ((joinedBytes .text data).map Prod.fst).length = (joinedBytes .text data).length :=
      List.length_map Prod.fst
    rw [← hfst, ← hpairs, List.length_map, List.length_map]
  -- The lines with their marks come out of the reading of the whole file.
  have hmarked : splitEnds (((joinedBytes .text data).zip (marked.flatten.map Prod.snd)).map
      fun z => ((z.1.1, z.2), z.1.2)) = marked := by
    refine List.eq_iff_flatten_eq.2 ⟨?_, ?_⟩
    · have hzip : ((joinedBytes .text data).map Prod.fst).zip (marked.flatten.map Prod.snd) =
          ((joinedBytes .text data).zip (marked.flatten.map Prod.snd)).map (Prod.map Prod.fst id) :=
        List.zip_map_left
      rw [← hpairs, List.zip_map'] at hzip
      rw [splitEnds_flatten, List.map_map]
      refine hzip.symm.trans ?_
      simp
    · have hfst := splitEnds_map Prod.fst
        (((joinedBytes .text data).zip (marked.flatten.map Prod.snd)).map
          fun z => ((z.1.1, z.2), z.1.2))
      have hW := List.map_fst_zip hlength
      rw [List.map_map] at hfst
      have hsame : splitEnds (((joinedBytes .text data).zip
          (marked.flatten.map Prod.snd)).map Prod.fst) = marked.map (List.map Prod.fst) := by
        rw [hW, ← joinedLines_splitEnds, hlines]
      have hlines' := congrArg (List.map List.length) (hfst.symm.trans hsame)
      simpa [List.map_map, Function.comp_def] using hlines'
  have hends : ∀ z ∈ (joinedBytes .text data).zip (marked.flatten.map Prod.snd),
      z.2 = false → z.1.2 = false := by
    rintro ⟨⟨p, e⟩, k⟩ hz hk
    cases e with
    | false => rfl
    | true =>
      have hmem : ((p, k), true) ∈ ((joinedBytes .text data).zip
          (marked.flatten.map Prod.snd)).map fun z => ((z.1.1, z.2), z.1.2) :=
        List.mem_map.2 ⟨_, hz, rfl⟩
      obtain ⟨l, hl, hlastl⟩ := splitEnds_end hmem
      rw [hmarked] at hl
      exact absurd (joinedBytes_end (List.of_mem_zip hz).1) (hlast l hl (p, k) hlastl hk)
  have hfile : kept (marked.flatten.map fun x => (x.1.1, x.2)) = fileText (kept marked.flatten) :=
    kept_map Prod.fst marked.flatten
  have hread : joinedBytes .text (fileText (kept marked.flatten)) =
      kept ((joinedBytes .text data).zip (marked.flatten.map Prod.snd)) := by
    have hsim := joinedBytes_kept hchain (fun _ _ _ => rfl) (fun _ _ _ => rfl)
      (fun h => by cases h) (by rw [hdata, hkeeps]; exact hends)
    rwa [hdata, hkeeps, hfile] at hsim
  have hcut : splitEnds (kept ((joinedBytes .text data).zip (marked.flatten.map Prod.snd))) =
      (marked.map kept).filter (! ·.isEmpty) := by
    have hsplit := splitEnds_kept (Z := ((joinedBytes .text data).zip
      (marked.flatten.map Prod.snd)).map fun z => ((z.1.1, z.2), z.1.2)) (by
        rintro z hz he
        obtain ⟨w, hw, rfl⟩ := List.mem_map.1 hz
        by_contra hk
        cases (hends w hw (Bool.eq_false_iff.2 hk)).symm.trans he)
    rwa [hmarked, List.filter_map, List.map_map] at hsplit
  have hall : (marked.map kept).filter (! ·.isEmpty) = marked.map kept := by
    refine List.filter_eq_self.2 (List.forall_mem_map.2 fun l hl => ?_)
    obtain ⟨x, hx, hk⟩ := hhead l hl
    rw [Bool.not_eq_true', List.isEmpty_eq_false_iff]
    exact List.ne_nil_of_mem (mem_kept (List.mem_of_mem_head? hx) hk)
  rw [logicalLines_eq, joinedLines_splitEnds, hread, hcut, hall, List.map_map]
  rfl

end MakefileParser

end Cvise
